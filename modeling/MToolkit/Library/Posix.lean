import Mathlib.Data.List.Basic
import Mathlib.Data.Option.Basic
import Mathlib.Logic.Relation

/-!
# A file system of POSIX

Directories, regular files and symbolic links, and the calls `stat`, `opendir` and `remove`
on them. A path name is resolved component by component; a link on the way is replaced by its
target, as often as the system allows in one resolution (`Posix.FileSystem.follow`). `stat`
and `opendir` follow a link that the path name ends in, `remove` takes that entry itself.

A call that removes an entry takes it out of one directory and touches nothing else. So a
process that does nothing but remove leaves the file system without some of its entries
(`Posix.FileSystem.without`), and what can be resolved afterwards could be resolved before, to
the same file (`Posix.FileSystem.resolve_of_without`).
-/

namespace Posix

/-! ### Path names -/

/-- A path name. -/
abbrev Path := List Char

/-- The name of an entry of a directory, other than dot and dot-dot. -/
structure Name where
  chars : List Char
  ne_nil : chars ≠ []
  no_slash : '/' ∉ chars
  ne_dot : chars ≠ ['.']
  ne_dotDot : chars ≠ ['.', '.']
  deriving DecidableEq

/-- The name of one letter. -/
def Name.letter (c : Char) (h : c ≠ '/' ∧ c ≠ '.') : Name where
  chars := [c]
  ne_nil := List.cons_ne_nil _ _
  no_slash := by simpa using h.1.symm
  ne_dot := by simpa using h.2
  ne_dotDot := by simp

/-- A component of a path name. -/
inductive Component where
  | dot : Component
  | dotDot : Component
  | name (n : Name) : Component
  deriving DecidableEq

/-- The characters of a component. -/
def Component.chars : Component → List Char
  | .dot => ['.']
  | .dotDot => ['.', '.']
  | .name n => n.chars

theorem Component.chars_ne_nil (c : Component) : c.chars ≠ [] := by
  rcases c with _ | _ | n
  · exact List.cons_ne_nil _ _
  · exact List.cons_ne_nil _ _
  · exact n.ne_nil

/-- The component of some characters; there is none between two slashes that follow one
another. -/
def Component.ofChars (cs : List Char) : Option Component :=
  if cs = ['.'] then some .dot
  else if cs = ['.', '.'] then some .dotDot
  else if h : cs ≠ [] ∧ '/' ∉ cs ∧ cs ≠ ['.'] ∧ cs ≠ ['.', '.'] then
    some (.name ⟨cs, h.1, h.2.1, h.2.2.1, h.2.2.2⟩)
  else none

@[simp] theorem Component.ofChars_nil : Component.ofChars [] = none := rfl

@[simp] theorem Component.ofChars_name (n : Name) : Component.ofChars n.chars = some (.name n) := by
  rw [ofChars, if_neg n.ne_dot, if_neg n.ne_dotDot,
    dif_pos ⟨n.ne_nil, n.no_slash, n.ne_dot, n.ne_dotDot⟩]

/-- The components of a path name. -/
def components (path : Path) : List Component := (path.splitOn '/').filterMap Component.ofChars

/-- The path name ends in a slash. -/
def slashed (path : Path) : Bool := path.getLast? == some '/'

/-- The components the path name is resolved by: a slash at its end stands for a dot behind
it. -/
def parts (path : Path) : List Component :=
  if slashed path then components path ++ [.dot] else components path

/-- **What comes behind a slash** adds its components. -/
theorem components_append_slash (path rest : Path) :
    components (path ++ '/' :: rest) = components path ++ components rest := by
  rw [components, List.splitOn_append_cons_self, List.filterMap_append]
  rfl

@[simp] theorem components_name (n : Name) : components n.chars = [.name n] := by
  rw [components, List.splitOn_eq_singleton n.no_slash, List.filterMap_cons, Component.ofChars_name]
  rfl

/-- A slash and a name behind a path name are one more component. -/
theorem components_slash (path : Path) (n : Name) :
    components (path ++ '/' :: n.chars) = components path ++ [.name n] := by
  rw [components_append_slash, components_name]

/-- So is a name behind a path name that ends in a slash. -/
theorem components_slashed {path : Path} (n : Name) (h : slashed path) :
    components (path ++ n.chars) = components path ++ [.name n] := by
  -- the slash is a separator of its own, so nothing comes between it and the end
  obtain ⟨front, rfl⟩ : ∃ front, path = front ++ ['/'] :=
    List.getLast?_eq_some_iff.1 (by simpa [slashed] using h)
  have hfront : components (front ++ ['/']) = components front := by
    rw [components_append_slash]
    simp [components]
  rw [List.append_assoc, List.singleton_append, components_slash, hfront]

/-- A name holds no slash, so neither does the end of a path name that ends in a name. -/
theorem slashed_name (path : Path) (n : Name) : slashed (path ++ n.chars) = false := by
  have hlast := List.getLast?_eq_some_getLast n.ne_nil
  have hne : n.chars.getLast n.ne_nil ≠ '/' := fun h => n.no_slash (h ▸ List.getLast_mem n.ne_nil)
  simpa [slashed, hlast] using hne

/-! ### The state -/

/-- The serial number of a file. -/
abbrev Ino := ℕ

/-- A directory, with what its mode bits allow the process. -/
structure Directory where
  /-- What dot-dot names. -/
  parent : Ino
  entries : List (Name × Ino)
  readable : Bool
  writable : Bool
  searchable : Bool

/-- The directory without its entries of some names. -/
def Directory.without (p : Name → Bool) (dir : Directory) : Directory :=
  { dir with entries := dir.entries.filter fun e => !p e.1 }

/-- The file an entry of the directory names. -/
def Directory.find (dir : Directory) (n : Name) : Option Ino :=
  (dir.entries.find? (·.1 = n)).map (·.2)

/-- A file. -/
inductive Node where
  | directory (dir : Directory) : Node
  | regular (content : List UInt8) : Node
  | link (target : Path) : Node

/-- The file without its entries of some names, if it is a directory. -/
def Node.without (p : Name → Bool) : Node → Node
  | .directory dir => .directory (dir.without p)
  | .regular content => .regular content
  | .link target => .link target

/-- A file system, as a process with a working directory sees it. -/
structure FileSystem where
  node : Ino → Option Node
  root : Ino
  cwd : Ino
  /-- How many links may be followed in one resolution. -/
  symloopMax : ℕ
  /-- The first length at which a path name is too long, unless there is none. -/
  pathMax : Option ℕ

namespace FileSystem

variable (fs : FileSystem)

/-! ### Resolution of path names -/

/-- Where the resolution of a path name starts; the empty one names nothing. -/
def start (d : Ino) : Path → Option Ino
  | [] => none
  | c :: _ => some (if c = '/' then fs.root else d)

/-- The file one component names in a directory. -/
def step (d : Ino) (c : Component) : Option Ino :=
  match fs.node d with
  | some (.directory dir) =>
    if dir.searchable then
      match c with
      | .dot => some d
      | .dotDot => some dir.parent
      | .name n => dir.find n
    else none
  | _ => none

/-- Resolve components one after the other; `expand` goes on at a link, from the directory of
the link, with its target and the components that are left. -/
def walk (expand : Ino → Path → List Component → Option Ino) :
    Ino → List Component → Option Ino
  | d, [] => some d
  | d, c :: cs =>
    match fs.step d c with
    | none => none
    | some i =>
      match fs.node i with
      | some (.link target) => expand d target cs
      | _ => walk expand i cs

/-- Resolve components, following at most so many links. -/
def follow : ℕ → Ino → List Component → Option Ino
  | 0 => fs.walk fun _ _ _ => none
  | budget + 1 => fs.walk fun d target cs =>
    (fs.start d target).bind fun e => follow budget e (parts target ++ cs)

/-- The path name is not too long. -/
def fits (path : Path) : Bool := fs.pathMax.all fun m => path.length < m

/-- Resolve the components of a path name. -/
def resolve (path : Path) (cs : List Component) : Option Ino :=
  if fs.fits path then (fs.start fs.cwd path).bind fun d => fs.follow fs.symloopMax d cs else none

/-- `stat`: the file the path name leads to. -/
def stat (path : Path) : Option Ino := fs.resolve path (parts path)

/-- The entry a path name ends in, by its directory and its name. -/
def entryOf (path : Path) : Option (Ino × Name) :=
  match (components path).getLast? with
  | some (.name n) => (fs.resolve path (components path).dropLast).map fun d => (d, n)
  | _ => none

/-! ### Calls -/

/-- The file is a directory. -/
def isDirectory (i : Ino) : Bool :=
  match fs.node i with
  | some (.directory _) => true
  | _ => false

/-- `opendir`, with all that `readdir` will return. -/
def opendir (path : Path) : Option (Ino × List Component) :=
  match fs.stat path with
  | none => none
  | some d =>
    match fs.node d with
    | some (.directory dir) =>
      if dir.readable then
        some (d, .dot :: .dotDot :: dir.entries.map fun e => .name e.1)
      else none
    | _ => none

/-- Entries of the directory may be removed. -/
def writable (d : Ino) : Bool :=
  match fs.node d with
  | some (.directory dir) => dir.writable
  | _ => false

/-- `remove`: the entry it takes away, which is no directory, or an empty one. -/
def remove (path : Path) : Option (Ino × Name) :=
  match fs.entryOf path with
  | none => none
  | some (d, n) =>
    match (fs.step d (.name n)).bind fs.node with
    | none => none
    | some (.directory dir) => if fs.writable d && dir.entries.isEmpty then some (d, n) else none
    | some _ => if fs.writable d && !slashed path then some (d, n) else none

/-- The file system without some entries. -/
def without (es : List (Ino × Name)) : FileSystem :=
  { fs with node := fun i => (fs.node i).map (Node.without fun n => (i, n) ∈ es) }

/-! ### The tree -/

/-- The entries of a file, if it is a directory. -/
def entries (d : Ino) : List (Name × Ino) :=
  match fs.node d with
  | some (.directory dir) => dir.entries
  | _ => []

/-- The file is named by an entry of the directory. -/
def Child (d i : Ino) : Prop := ∃ n, (n, i) ∈ fs.entries d

/-- The file belongs to the **subtree** of a path name: it is what the path name leads to, or
entries lead from there to it. Where a link points to is no part of the subtree. -/
def Below (path : Path) (i : Ino) : Prop :=
  ∃ r, fs.stat path = some r ∧ Relation.ReflTransGen fs.Child r i

end FileSystem

/-- A process at work: the file system, with the listings it has been given, the entries it
has removed and what it has written to its error stream. -/
structure Session where
  fs : FileSystem
  opened : List (Ino × List Component)
  removed : List (Ino × Name)
  errors : List (List Char)

namespace Session

/-- A process that has done nothing yet. -/
def init (fs : FileSystem) : Session where
  fs := fs
  opened := []
  removed := []
  errors := []

/-- `opendir` and `readdir` -/
def opendir (s : Session) (path : Path) : Option (List Component × Session) :=
  (s.fs.opendir path).map fun listing =>
    (listing.2, { s with opened := s.opened ++ [listing] })

/-- `remove` -/
def remove (s : Session) (path : Path) : Bool × Session :=
  match s.fs.remove path with
  | some e => (true, { s with fs := s.fs.without [e], removed := s.removed ++ [e] })
  | none => (false, s)

/-- A line on the error stream. -/
def report (s : Session) (line : List Char) : Session := { s with errors := s.errors ++ [line] }

end Session

namespace FileSystem

variable {fs : FileSystem} {es es' : List (Ino × Name)} {budget : ℕ} {d i : Ino} {n : Name}
  {c : Component} {cs xs ys : List Component} {path : Path}

/-! ### Without some entries -/

/-- A file of which no name is taken away. -/
theorem node_without_false : Node.without (fun _ => false) = id := by
  funext node
  rcases node with dir | _ | _
  · simp [Node.without, Directory.without]
  · rfl
  · rfl

@[simp] theorem without_nil (fs : FileSystem) : fs.without [] = fs := by
  simp [without, node_without_false]

/-- Entries may be taken away one after the other. -/
theorem without_append (fs : FileSystem) (es es' : List (Ino × Name)) :
    (fs.without es).without es' = fs.without (es ++ es') := by
  simp only [without, FileSystem.mk.injEq, and_true]
  funext i
  rcases fs.node i with _ | (dir | _ | _)
  · rfl
  · simp [Node.without, Directory.without, Bool.and_comm]
  · rfl
  · rfl

/-- A file is left as it was up to the names that are taken away from it. -/
theorem node_without_congr (h : ∀ n, (i, n) ∈ es ↔ (i, n) ∈ es') :
    (fs.without es).node i = (fs.without es').node i := by
  simp only [without, h]

/-- So a file of which no name is taken away is left as it was. -/
theorem node_without_of_not_mem (h : ∀ n, (i, n) ∉ es) : (fs.without es).node i = fs.node i := by
  have hnone : ∀ n, (i, n) ∈ es ↔ (i, n) ∈ ([] : List (Ino × Name)) := by simpa using h
  rw [node_without_congr hnone, without_nil]

theorem node_without_eq_link {target : Path} :
    (fs.without es).node i = some (.link target) ↔ fs.node i = some (.link target) := by
  simp only [without, Option.map_eq_some_iff]
  constructor
  · rintro ⟨node, hnode, h⟩
    rcases node with dir | _ | _
    · cases h
    · cases h
    · rw [hnode, ← h]
      rfl
  · intro h
    exact ⟨_, h, rfl⟩

theorem node_without_eq_directory {dir' : Directory} :
    (fs.without es).node i = some (.directory dir') ↔
      ∃ dir, fs.node i = some (.directory dir) ∧ dir.without (fun n => (i, n) ∈ es) = dir' := by
  simp only [without, Option.map_eq_some_iff]
  constructor
  · rintro ⟨node, hnode, h⟩
    rcases node with dir | _ | _
    · exact ⟨dir, hnode, Node.directory.inj h⟩
    · cases h
    · cases h
  · rintro ⟨dir, hdir, rfl⟩
    exact ⟨_, hdir, rfl⟩

/-- **The entries that are left** are the others. -/
theorem entries_without :
    (fs.without es).entries d = (fs.entries d).filter fun e => (d, e.1) ∉ es := by
  rcases h : fs.node d with _ | (dir | _ | _)
  · simp [entries, without, h]
  · simp [entries, without, h, Node.without, Directory.without]
  · simp [entries, without, h, Node.without]
  · simp [entries, without, h, Node.without]

/-! ### Resolution without some entries -/

/-- A name that is taken away is not found; the others name what they named. -/
theorem find_without (dir : Directory) (p : Name → Bool) (n : Name) :
    (dir.without p).find n = if p n then none else dir.find n := by
  rw [Directory.find, Directory.without, List.find?_filter, Directory.find]
  by_cases hp : p n
  · have hnone : ∀ e ∈ dir.entries, ¬(!p e.1 ∧ e.1 = n) := by
      rintro e - ⟨he, rfl⟩
      simp [hp] at he
    rw [List.find?_eq_none.2 (by simpa using hnone), if_pos hp]
    rfl
  · have hsame : ∀ e : Name × Ino, (!p e.1 ∧ e.1 = n) ↔ e.1 = n := by
      rintro ⟨m, i⟩
      constructor
      · exact And.right
      · rintro rfl
        exact ⟨by simpa using hp, rfl⟩
    simp only [decide_eq_true_eq, hsame, if_neg hp]

/-- **What a component names without some entries** it names with them. -/
theorem step_of_without (h : (fs.without es).step d c = some i) : fs.step d c = some i := by
  rw [step] at h
  split at h
  · rename_i dir' hdir'
    obtain ⟨dir, hdir, rfl⟩ := node_without_eq_directory.1 hdir'
    split_ifs at h with hs
    rw [step, hdir]
    simp only [show dir.searchable from hs, if_true]
    rcases c with _ | _ | n
    · exact h
    · exact h
    · simp only [find_without] at h
      split_ifs at h
      exact h
  · cases h

/-- One more component that is resolved. -/
theorem walk_cons {expand : Ino → Path → List Component → Option Ino} :
    fs.walk expand d (c :: cs) = some i ↔
      ∃ e, fs.step d c = some e ∧
        ((∃ target, fs.node e = some (.link target) ∧ expand d target cs = some i) ∨
          (∀ target, fs.node e ≠ some (.link target)) ∧ fs.walk expand e cs = some i) := by
  rw [walk]
  rcases hstep : fs.step d c with _ | e
  · simp
  · rcases hnode : fs.node e with _ | (_ | _ | target) <;> simp [hnode]

/-- **The second file system finds what the first finds**: a component that names a file there
names the same file here, and the links are the same. -/
structure Finds (fs fs' : FileSystem) : Prop where
  root : fs'.root = fs.root
  cwd : fs'.cwd = fs.cwd
  symloopMax : fs'.symloopMax = fs.symloopMax
  pathMax : fs'.pathMax = fs.pathMax
  step : ∀ d c i, fs.step d c = some i → fs'.step d c = some i
  link : ∀ i target, fs.node i = some (.link target) ↔ fs'.node i = some (.link target)

section Finds

variable {fs' : FileSystem}

theorem Finds.start (h : Finds fs fs') (d : Ino) (path : Path) :
    fs'.start d path = fs.start d path := by
  rcases path with _ | ⟨c, path⟩
  · rfl
  · rw [FileSystem.start, FileSystem.start, h.root]

/-- The resolution finds the same, where links lead to the same files. -/
theorem Finds.walk (h : Finds fs fs') {expand expand' : Ino → Path → List Component → Option Ino}
    (hexpand : ∀ d target cs i, expand d target cs = some i → expand' d target cs = some i)
    (hwalk : fs.walk expand d cs = some i) : fs'.walk expand' d cs = some i := by
  induction cs generalizing d with
  | nil => exact hwalk
  | cons c cs ih =>
    obtain ⟨e, hstep, hwalk⟩ := walk_cons.1 hwalk
    refine walk_cons.2 ⟨e, h.step _ _ _ hstep, ?_⟩
    rcases hwalk with ⟨target, hlink, hwalk⟩ | ⟨hlink, hwalk⟩
    · exact Or.inl ⟨target, (h.link _ _).1 hlink, hexpand _ _ _ _ hwalk⟩
    · exact Or.inr ⟨fun target he => hlink target ((h.link _ _).2 he), ih hwalk⟩

theorem Finds.follow (h : Finds fs fs') (hfollow : fs.follow budget d cs = some i) :
    fs'.follow budget d cs = some i := by
  induction budget generalizing d cs i with
  | zero => exact h.walk (fun _ _ _ _ h => h) hfollow
  | succ budget ih =>
    refine h.walk (fun d target cs i hi => ?_) hfollow
    -- at a link the resolution goes on with one link less to follow
    obtain ⟨e, hstart, hi⟩ := Option.bind_eq_some_iff.1 hi
    exact Option.bind_eq_some_iff.2 ⟨e, (h.start d target).trans hstart, ih hi⟩

/-- **A path name leads to the same file** in a file system that finds more. -/
theorem Finds.resolve (h : Finds fs fs') (hresolve : fs.resolve path cs = some i) :
    fs'.resolve path cs = some i := by
  rw [FileSystem.resolve, fits] at hresolve ⊢
  rw [h.pathMax, h.cwd, h.symloopMax]
  split_ifs at hresolve with hfits
  rw [if_pos hfits]
  obtain ⟨e, hstart, hi⟩ := Option.bind_eq_some_iff.1 hresolve
  exact Option.bind_eq_some_iff.2 ⟨e, (h.start _ path).trans hstart, h.follow hi⟩

theorem Finds.stat (h : Finds fs fs') (hstat : fs.stat path = some i) : fs'.stat path = some i :=
  h.resolve hstat

theorem Finds.entryOf (h : Finds fs fs') (hentry : fs.entryOf path = some (d, n)) :
    fs'.entryOf path = some (d, n) := by
  rw [FileSystem.entryOf] at hentry ⊢
  split at hentry
  · obtain ⟨e, he, hentry⟩ := Option.map_eq_some_iff.1 hentry
    exact Option.map_eq_some_iff.2 ⟨e, h.resolve he, hentry⟩
  · cases hentry

end Finds

/-- **Entries that are taken away** lead a path name nowhere else. -/
theorem finds_without (fs : FileSystem) (es : List (Ino × Name)) : Finds (fs.without es) fs where
  root := rfl
  cwd := rfl
  symloopMax := rfl
  pathMax := rfl
  step _ _ _ := step_of_without
  link _ _ := node_without_eq_link

theorem follow_of_without (h : (fs.without es).follow budget d cs = some i) :
    fs.follow budget d cs = some i :=
  (finds_without fs es).follow h

theorem resolve_of_without (h : (fs.without es).resolve path cs = some i) :
    fs.resolve path cs = some i :=
  (finds_without fs es).resolve h

theorem stat_of_without (h : (fs.without es).stat path = some i) : fs.stat path = some i :=
  (finds_without fs es).stat h

theorem entryOf_of_without (h : (fs.without es).entryOf path = some (d, n)) :
    fs.entryOf path = some (d, n) :=
  (finds_without fs es).entryOf h

/-! ### Resolution in two parts -/

/-- One more component that is resolved, with the links that are counted. -/
theorem follow_cons : fs.follow budget d (c :: cs) = some i ↔
    ∃ e, fs.step d c = some e ∧
      ((∃ target, fs.node e = some (.link target) ∧ ∃ left e', budget = left + 1 ∧
          fs.start d target = some e' ∧ fs.follow left e' (parts target ++ cs) = some i) ∨
        (∀ target, fs.node e ≠ some (.link target)) ∧ fs.follow budget e cs = some i) := by
  rcases budget with _ | budget
  · simp [follow, walk_cons]
  · simp [follow, walk_cons, Option.bind_eq_some_iff]

/-- **Components behind others** are resolved from where these lead to. -/
theorem follow_append (h : fs.follow budget d (xs ++ ys) = some i) :
    ∃ e left, fs.follow budget d xs = some e ∧ fs.follow left e ys = some i := by
  induction budget using Nat.strongRecOn generalizing d xs with
  | _ budget ihb =>
    induction xs generalizing d with
    | nil => exact ⟨d, budget, by cases budget <;> rfl, h⟩
    | cons c xs ih =>
      obtain ⟨e, hstep, h⟩ := follow_cons.1 (by simpa using h)
      rcases h with ⟨target, hlink, left, d', rfl, hstart, h⟩ | ⟨hlink, h⟩
      · -- the target comes before the components that are left
        rw [← List.append_assoc] at h
        obtain ⟨e', left', hxs, hys⟩ := ihb left (Nat.lt_succ_self left) h
        exact ⟨e', left', follow_cons.2
          ⟨e, hstep, Or.inl ⟨target, hlink, left, d', rfl, hstart, hxs⟩⟩, hys⟩
      · obtain ⟨e', left', hxs, hys⟩ := ih h
        exact ⟨e', left', follow_cons.2 ⟨e, hstep, Or.inr ⟨hlink, hxs⟩⟩, hys⟩

/-- Components are resolved in directories only. -/
theorem isDirectory_of_step (h : fs.step d c = some i) : fs.isDirectory d := by
  rw [step] at h
  split at h
  · rename_i hdir
    rw [isDirectory, hdir]
  · cases h

theorem step_dot (h : fs.step d .dot = some i) : i = d := by
  rw [step] at h
  split at h
  · split_ifs at h
    exact (Option.some.inj h).symm
  · cases h

/-- A dot leads nowhere else. -/
theorem follow_dot (h : fs.follow budget d [.dot] = some i) : i = d := by
  obtain ⟨e, hstep, h⟩ := follow_cons.1 h
  have hdir := isDirectory_of_step hstep
  obtain rfl := step_dot hstep
  rcases h with ⟨target, hlink, -⟩ | ⟨-, h⟩
  · -- a directory is no link
    rw [isDirectory, hlink] at hdir
    cases hdir
  · cases budget <;> exact (Option.some.inj h).symm

theorem resolve_eq_some : fs.resolve path cs = some i ↔
    fs.fits path ∧ ∃ d, fs.start fs.cwd path = some d ∧ fs.follow fs.symloopMax d cs = some i := by
  rw [resolve]
  split_ifs with hfits
  · simp [hfits, Option.bind_eq_some_iff]
  · simp [hfits]

/-- **A slash at the end** leads nowhere else. -/
theorem resolve_of_stat (h : fs.stat path = some i) :
    fs.resolve path (components path) = some i := by
  rw [stat, parts] at h
  split_ifs at h with hslash
  · obtain ⟨hfits, d, hstart, h⟩ := resolve_eq_some.1 h
    obtain ⟨e, left, hcs, hdot⟩ := follow_append h
    obtain rfl := follow_dot hdot
    exact resolve_eq_some.2 ⟨hfits, d, hstart, hcs⟩
  · exact h

/-- The empty path name leads nowhere. -/
theorem ne_nil_of_resolve (h : fs.resolve path cs = some i) : path ≠ [] := by
  rintro rfl
  obtain ⟨-, d, hstart, -⟩ := resolve_eq_some.1 h
  cases hstart

/-- A path name leads no further than a longer one that begins with it. -/
theorem resolve_append (hpath : path ≠ []) {rest : Path}
    (h : fs.resolve (path ++ rest) cs = some i) : fs.resolve path cs = some i := by
  obtain ⟨hfits, d, hstart, h⟩ := resolve_eq_some.1 h
  refine resolve_eq_some.2 ⟨?_, d, ?_, h⟩
  · rw [fits, Option.all_eq_true] at hfits ⊢
    intro m hm
    have := hfits m hm
    simp only [List.length_append, decide_eq_true_eq] at this ⊢
    omega
  · -- both begin with the same character
    rcases path with _ | ⟨c, path⟩
    · exact absurd rfl hpath
    · exact hstart

/-! ### What the calls find -/

/-- The entry a path name ends in lies where the components before it lead to. -/
theorem entryOf_eq_some : fs.entryOf path = some (d, n) ↔
    ∃ cs, components path = cs ++ [.name n] ∧ fs.resolve path cs = some d := by
  rw [entryOf]
  constructor
  · intro h
    split at h
    · rename_i m hm
      obtain ⟨cs, hcs⟩ := List.getLast?_eq_some_iff.1 hm
      obtain ⟨e, he, h⟩ := Option.map_eq_some_iff.1 h
      obtain ⟨rfl, rfl⟩ := Prod.mk.inj h
      exact ⟨cs, hcs, by simpa [hcs] using he⟩
    · cases h
  · rintro ⟨cs, hcs, hd⟩
    simp [hcs, hd]

theorem find_eq_some {dir : Directory} (h : dir.find n = some i) : (n, i) ∈ dir.entries := by
  obtain ⟨⟨m, j⟩, he, rfl⟩ := Option.map_eq_some_iff.1 h
  obtain rfl : m = n := by simpa using List.find?_some he
  exact List.mem_of_find?_eq_some he

theorem mem_entries_of_step (h : fs.step d (.name n) = some i) : (n, i) ∈ fs.entries d := by
  rw [step] at h
  split at h
  · rename_i dir hdir
    split_ifs at h
    rw [entries, hdir]
    exact find_eq_some h
  · cases h

/-- The entry that is taken away is the one the path name ends in, and is there before. -/
theorem remove_eq_some {e : Ino × Name} (h : fs.remove path = some e) :
    fs.entryOf path = some e ∧ ∃ i, (e.2, i) ∈ fs.entries e.1 := by
  rw [remove] at h
  split at h
  · cases h
  · rename_i d n hentry
    rcases hi : fs.step d (.name n) with _ | i
    · simp [hi] at h
    · have hfound : fs.entryOf path = some (d, n) ∧ ∃ i, (n, i) ∈ fs.entries d :=
        ⟨hentry, i, mem_entries_of_step hi⟩
      split at h
      · cases h
      · split_ifs at h
        exact Option.some.inj h ▸ hfound
      · split_ifs at h
        exact Option.some.inj h ▸ hfound

/-- A directory is listed with the names of its entries. -/
theorem opendir_eq_some {listing : Ino × List Component} (h : fs.opendir path = some listing) :
    fs.stat path = some listing.1 ∧
      ∀ n, .name n ∈ listing.2 ↔ ∃ i, (n, i) ∈ fs.entries listing.1 := by
  rw [opendir] at h
  split at h
  · cases h
  · rename_i d hd
    split at h
    · rename_i dir hdir
      split_ifs at h
      obtain rfl := Option.some.inj h
      refine ⟨hd, fun n => ?_⟩
      simp [entries, hdir]
    · cases h

end FileSystem

end Posix

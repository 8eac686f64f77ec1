import Mathlib.Data.List.Induction
import MToolkit.Library.PosixSprout
import MToolkit.Utilities.CreateDirectories
import MToolkit.Utilities.RemoveTree

/-!
# Directories made and removed

The functions `CreateDirectories` and `Remove` of the class `Filesystem`
(`utilities/filesystem.cpp`), called one after the other.

* A call of `CreateDirectories` that has returned true can be **repeated** at any time: it returns
  true again and makes nothing, whatever other calls have made meanwhile
  (`MToolkit.Filesystem.CreateDirectories_again`).
* Whatever calls make below a directory that was not there, `Remove` on this directory **undoes**,
  exactly if it passes no name over (`MToolkit.Filesystem.Remove_creates_iff`).

A call is a sequence of calls of `mkdir` for the path name and its parts before a slash
(`MToolkit.Filesystem.creates_induction`), so each of these results is about one such call.
-/

namespace MToolkit

open Posix

namespace Filesystem

/-- The file system after some calls of `CreateDirectories`. -/
def creates (supply : Supply) (paths : List Path) (fs : FileSystem) : FileSystem :=
  paths.foldl (fun fs path => (CreateDirectories supply path fs).2) fs

/-- The path name of what some names lead to, one after the other. -/
def below (path : Path) (names : List Name) : Path :=
  names.foldl (fun path n => value path n.chars) path

/-! ### An empty root directory -/

/-- Nothing but the root directory. -/
def onlyRoot : FileSystem where
  node
    | 0 => some (.directory ⟨0, [], true, true, true⟩)
    | _ => none
  root := 0
  cwd := 0
  symloopMax := 40
  pathMax := none

theorem onlyRoot_permissive : onlyRoot.Permissive where
  pathMax := rfl
  modes
    | 0, dir, h => by cases h; exact ⟨rfl, rfl, rfl⟩
    | _ + 1, dir, h => by cases h

theorem exists_mkdir_onlyRoot : ∃ fs, onlyRoot.mkdir .any ['/', 'a'] = some fs := by
  have hfree : ∃ i, onlyRoot.node i = none ∧ ¬ onlyRoot.Mentions i := by
    refine ⟨1, rfl, ?_⟩
    rintro (h | h | ⟨d, dir, hd, h⟩)
    · cases h
    · cases h
    · rcases d with _ | d
      · obtain rfl := Node.directory.inj (Option.some.inj hd)
        rcases h with h | ⟨n, h⟩
        · cases h
        · cases h
      · cases hd
  have hnext : Supply.any.next onlyRoot = some hfree.choose := dif_pos hfree
  have hentry : onlyRoot.entryOf ['/', 'a'] = some (0, .letter 'a' (by decide)) := by decide
  have hroot : onlyRoot.node 0 = some (.directory ⟨0, [], true, true, true⟩) := rfl
  exact ⟨_, by simp only [FileSystem.mkdir, hentry, hnext, hroot]; rfl⟩

section Run

variable {supply : Supply} {path q : Path} {paths : List Path} {fs fs' : FileSystem} {r : Bool}
  {i k left : ℕ}

/-! ### A call is a sequence of calls of `mkdir` -/

theorem loop_induction {P : FileSystem → Prop}
    (hmk : ∀ q, q = path ∨ Before q path → ∀ fs fs', P fs → fs.mkdir supply q = some fs' → P fs')
    (hfs : P fs) (h : CreateDirectories.loop supply path left i fs = (r, fs')) : P fs' := by
  have hcall : ∀ i q fs fs₁ r, target path i = some q → P fs →
      CreateDirectory supply q fs = (r, fs₁) → P fs₁ := by
    intro i q fs fs₁ r htarget hfs hcall
    rcases createDirectory_cases hcall with ⟨hq, -⟩ | ⟨rfl, -⟩
    · exact hmk q ((target_cases htarget).imp And.right fun h => h.2.1) _ _ hfs hq
    · exact hfs
  induction left generalizing i fs with
  | zero =>
    obtain ⟨-, rfl⟩ := Prod.mk.inj h
    exact hfs
  | succ left ih =>
    rcases loop_cases h with ⟨-, h⟩ | ⟨q, htarget, ⟨-, hlast⟩ | ⟨fs₁, hfirst, h⟩⟩
    · exact ih hfs h
    · exact hcall i q _ _ _ htarget hfs hlast
    · exact ih (hcall i q _ _ _ htarget hfs hfirst) h

/-- **What `mkdir` keeps**, for the path names and their parts before a slash, calls keep. -/
theorem creates_induction {P : FileSystem → Prop}
    (hmk : ∀ path ∈ paths, ∀ q, q = path ∨ Before q path → ∀ fs fs', P fs →
      fs.mkdir supply q = some fs' → P fs')
    (hfs : P fs) : P (creates supply paths fs) := by
  induction paths generalizing fs with
  | nil => exact hfs
  | cons path paths ih =>
    refine ih (fun path' hmem => hmk path' (List.mem_cons_of_mem _ hmem)) ?_
    exact loop_induction (hmk path List.mem_cons_self) hfs rfl

theorem grown_creates (supply : Supply) (paths : List Path) (fs : FileSystem) :
    fs.Grown (creates supply paths fs) :=
  creates_induction (P := fun fs' => fs.Grown fs')
    (fun _ _ _ _ _ _ h hq => h.trans (FileSystem.grown_mkdir hq)) (.refl fs)

/-! ### A call again -/

/-- **What a call that returns true leaves behind**: its path name leads somewhere. -/
theorem stat_of_returns (hpath : path ≠ []) (h : CreateDirectories supply path fs = (true, fs')) :
    ∃ i, fs'.stat path = some i := by
  obtain ⟨fs₁, -, hlast⟩ := exists_last_call (Nat.add_zero _) (List.length_pos_iff.2 hpath) h
  rcases createDirectory_cases hlast with ⟨hmk, -⟩ | ⟨rfl, hexists⟩
  · obtain ⟨i, hi, -⟩ := FileSystem.stat_mkdir hmk
    exact ⟨i, hi⟩
  · exact Option.isSome_iff_exists.1 (hexists rfl)

/-- Where the path name leads somewhere, **every call finds its directory there**. -/
theorem loop_of_stat (h : fs.stat path = some k) (left i : ℕ) :
    CreateDirectories.loop supply path left i fs = (true, fs) := by
  induction left generalizing i with
  | zero => rfl
  | succ left ih =>
    rcases htarget : target path i with _ | q
    · rw [loop_of_none htarget, ih]
    · have hq : ∃ j, fs.stat q = some j := by
        rcases target_cases htarget with ⟨-, rfl⟩ | ⟨-, hbefore, -⟩
        · exact ⟨k, h⟩
        · obtain ⟨d, hd, -⟩ := FileSystem.stat_before hbefore h
          exact ⟨d, hd⟩
      obtain ⟨j, hj⟩ := hq
      simp only [loop_of_some htarget, createDirectory_of_stat hj, ih]

/-- **Nothing is made exactly if the path name leads somewhere already**, or is empty. -/
theorem CreateDirectories_eq_iff : CreateDirectories supply path fs = (true, fs) ↔
    path = [] ∨ ∃ i, fs.stat path = some i := by
  constructor
  · intro h
    by_cases hpath : path = []
    · exact Or.inl hpath
    · exact Or.inr (stat_of_returns hpath h)
  · rintro (rfl | ⟨i, hi⟩)
    · rfl
    · exact loop_of_stat hi _ _

/-- **A call may be repeated at any time**: when it has returned true, then after any other calls it
returns true again, and makes nothing. -/
theorem CreateDirectories_again (h : CreateDirectories supply path fs = (true, fs'))
    (paths : List Path) : CreateDirectories supply path (creates supply paths fs') =
      (true, creates supply paths fs') := by
  refine CreateDirectories_eq_iff.2 ?_
  by_cases hpath : path = []
  · exact Or.inl hpath
  · obtain ⟨i, hi⟩ := stat_of_returns hpath h
    exact Or.inr ⟨i, (grown_creates supply paths fs').finds.stat hi⟩

/-- A directory is made, and again when there is one in it. -/
theorem CreateDirectories_again_onlyRoot : ∃ fs,
    CreateDirectories .any ['/', 'a'] onlyRoot = (true, fs) ∧
      CreateDirectories .any ['/', 'a'] (creates .any [['/', 'a', '/', 'b']] fs) =
        (true, creates .any [['/', 'a', '/', 'b']] fs) := by
  obtain ⟨fs, hfs⟩ := exists_mkdir_onlyRoot
  have hrun : CreateDirectories .any ['/', 'a'] onlyRoot = (true, fs) := by
    have hcall := createDirectory_of_mkdir hfs
    simp [CreateDirectories, CreateDirectories.loop, hcall]
  exact ⟨fs, hrun, CreateDirectories_again hrun _⟩

/-! ### Path names below a directory -/

theorem components_below (path : Path) (names : List Name) :
    components (below path names) = components path ++ names.map .name := by
  induction names generalizing path with
  | nil => simp [below]
  | cons n names ih =>
    have hstep : below path (n :: names) = below (value path n.chars) names := rfl
    rw [hstep, ih, components_value]
    simp

theorem exists_below_eq_append (path : Path) (names : List Name) :
    ∃ rest, below path names = path ++ rest := by
  induction names generalizing path with
  | nil => exact ⟨[], by simp [below]⟩
  | cons n names ih =>
    obtain ⟨rest, hrest⟩ := ih (value path n.chars)
    have hstep : below path (n :: names) = below (value path n.chars) names := rfl
    rw [hstep, hrest, value]
    split_ifs
    · exact ⟨n.chars ++ rest, List.append_assoc _ _ _⟩
    · exact ⟨'/' :: n.chars ++ rest, List.append_assoc _ _ _⟩

/-- A part of a path name before a slash ends **before a name that comes last**. -/
theorem before_append_name {n : Name} (h : Before q (path ++ n.chars)) : Before q path := by
  obtain ⟨hne, rest, hrest⟩ := h
  rcases List.append_eq_append_iff.1 hrest with ⟨front, rfl, hn⟩ | ⟨front, rfl, hn⟩
  · exact absurd (hn ▸ List.mem_append_right _ List.mem_cons_self) n.no_slash
  · rcases front with _ | ⟨c, front⟩
    · rw [List.nil_append] at hn
      exact absurd (hn ▸ List.mem_cons_self) n.no_slash
    · obtain ⟨rfl, -⟩ := List.cons.inj hn
      exact ⟨hne, front, rfl⟩

theorem before_value {n : Name} (h : Before q (value path n.chars)) :
    Before q path ∨ q = path := by
  rw [value] at h
  split_ifs at h
  · exact Or.inl (before_append_name h)
  · rw [← List.singleton_append, ← List.append_assoc] at h
    obtain ⟨hne, rest, hrest⟩ := before_append_name h
    rcases rest.eq_nil_or_concat with rfl | ⟨rest, c, rfl⟩
    · exact Or.inr (List.append_inj' hrest rfl).1.symm
    · rw [List.concat_eq_append, ← List.cons_append, ← List.append_assoc] at hrest
      exact Or.inl ⟨hne, rest, (List.append_inj' hrest rfl).1⟩

/-- **What a call below a directory makes** lies before the directory, or below it. -/
theorem before_below {names : List Name} (h : Before q (below path names)) :
    Before q path ∨ ∃ front, front <+: names ∧ q = below path front := by
  induction names using List.reverseRecOn with
  | nil => exact Or.inl h
  | append_singleton names n ih =>
    have hlast : below path (names ++ [n]) = value (below path names) n.chars := by
      simp [below]
    rw [hlast] at h
    rcases before_value h with h | rfl
    · refine (ih h).imp_right ?_
      rintro ⟨front, hfront, rfl⟩
      exact ⟨front, hfront.trans (List.prefix_append _ _), rfl⟩
    · exact Or.inr ⟨names, List.prefix_append _ _, rfl⟩

/-! ### What is made below a directory -/

/-- Nothing has been made, or **all of it lies below the entry** the path name ends in. -/
def Sprouted (p : Name → Prop) (path : Path) (fs fs' : FileSystem) : Prop :=
  fs' = fs ∨ ∃ d n i, fs.entryOf path = some (d, n) ∧ fs.Sprout p d n i fs'

/-- The next component is found, where components behind it are. -/
theorem exists_step_of_resolve {c : Component} {cs ys : List Component} {d : Ino}
    (hd : fs.resolve path cs = some d) (h : fs.resolve path (cs ++ c :: ys) = some i) :
    ∃ j, fs.step d c = some j := by
  obtain ⟨hfits, e, hstart, h⟩ := FileSystem.resolve_eq_some.1 h
  obtain ⟨d', left, hd', h⟩ := FileSystem.follow_append h
  obtain rfl : d' = d :=
    Option.some.inj ((FileSystem.resolve_eq_some.2 ⟨hfits, e, hstart, hd'⟩).symm.trans hd)
  obtain ⟨j, hj, -⟩ := FileSystem.follow_cons.1 h
  exact ⟨j, hj⟩

/-- Names lead from a directory of a tree into the tree. -/
theorem reach_of_follow {d : Ino} (htree : fs.Tree d) {names : List Name}
    (h : fs.follow left d (names.map .name) = some i) :
    Relation.ReflTransGen fs.Child d i := by
  induction names generalizing d left with
  | nil =>
    obtain rfl : d = i := by cases left <;> exact Option.some.inj h
    exact .refl
  | cons n names ih =>
    obtain ⟨j, hstep, h⟩ := FileSystem.follow_cons.1 h
    have hchild : fs.Child d j := ⟨n, FileSystem.mem_entries_of_step hstep⟩
    rcases h with ⟨target, hlink, -⟩ | ⟨-, h⟩
    · exact absurd hlink ((htree.child hchild).not_link target)
    · exact .head hchild (ih (htree.child hchild) h)

/-- **Before the entry of a path name** lies another one that is there, or the same. -/
theorem entryOf_before {d e : Ino} {m n : Name} (hq : Before q path)
    (hpath : fs.entryOf path = some (d, n)) (hentry : fs.entryOf q = some (e, m)) :
    (e, m) = (d, n) ∨ ∃ j, fs.step e (.name m) = some j := by
  obtain ⟨hne, rest, rfl⟩ := hq
  obtain ⟨cs, hcs, hd⟩ := FileSystem.entryOf_eq_some.1 hpath
  obtain ⟨xs, hxs, he⟩ := FileSystem.entryOf_eq_some.1 hentry
  have hd := FileSystem.resolve_append hne hd
  rw [components_append_slash, hxs] at hcs
  rcases (components rest).eq_nil_or_concat with hrest | ⟨front, c, hrest⟩
  · -- there are only slashes behind it
    rw [hrest, List.append_nil] at hcs
    obtain ⟨rfl, hn⟩ := List.append_inj' hcs rfl
    simp only [List.cons.injEq, Component.name.injEq, and_true] at hn
    exact Or.inl (Prod.ext (Option.some.inj (he.symm.trans hd)) hn)
  · rw [hrest, List.concat_eq_append, ← List.append_assoc] at hcs
    obtain ⟨rfl, -⟩ := List.append_inj' hcs rfl
    rw [List.append_assoc] at hd
    exact Or.inr (exists_step_of_resolve he hd)

/-- **What is behind the entry** of a path name is found below what the entry names. -/
theorem entryOf_below {d e : Ino} {m n : Name} {names : List Name}
    (hpath : fs.entryOf path = some (d, n)) (hentry : fs.entryOf (below path names) = some (e, m)) :
    (names = [] ∧ (e, m) = (d, n)) ∨ m ∈ names ∧ (∃ j, fs.step d (.name n) = some j) ∧
      ∃ front : List Name, fs.resolve path (components path ++ front.map .name) = some e := by
  rcases names.eq_nil_or_concat with rfl | ⟨front, l, rfl⟩
  · exact Or.inl ⟨rfl, Option.some.inj (hentry.symm.trans hpath)⟩
  · obtain ⟨cs, hcs, hd⟩ := FileSystem.entryOf_eq_some.1 hpath
    obtain ⟨xs, hxs, he⟩ := FileSystem.entryOf_eq_some.1 hentry
    rw [components_below, List.concat_eq_append, List.map_append, ← List.append_assoc] at hxs
    obtain ⟨rfl, hm⟩ := List.append_inj' hxs rfl
    simp only [List.map_cons, List.map_nil, List.cons.injEq, Component.name.injEq, and_true] at hm
    obtain ⟨rest, hrest⟩ := exists_below_eq_append path (front.concat l)
    rw [hrest] at he
    have he := FileSystem.resolve_append (FileSystem.ne_nil_of_resolve hd) he
    refine Or.inr ⟨by simp [hm], ?_, front, he⟩
    rw [hcs, List.append_assoc] at he
    exact exists_step_of_resolve hd he

/-- A name that is not found in a directory names nothing there. -/
theorem not_step_of_find {e : Ino} {m : Name} {dir : Directory}
    (hdir : fs.node e = some (.directory dir)) (hfind : dir.find m = none) :
    ¬ ∃ j, fs.step e (.name m) = some j := by
  rintro ⟨j, hj⟩
  rw [FileSystem.step, hdir] at hj
  simp [hfind] at hj

/-- **One call of `mkdir`** for a path name at or below the directory, or for a part before it. -/
theorem sprouted_mkdir {p : Name → Prop} {fs₁ fs₂ : FileSystem} {names : List Name}
    (hnew : (fs.mkdir supply path).isSome) (hp : ∀ n ∈ names, p n)
    (hq : Before q path ∨ q = below path names) (h : Sprouted p path fs fs₁)
    (hmk : fs₁.mkdir supply q = some fs₂) : Sprouted p path fs fs₂ := by
  obtain ⟨fs₀, hnew⟩ := Option.isSome_iff_exists.1 hnew
  obtain ⟨d, dir₀, n, -, hpath, hdir₀, -, hfind₀, -⟩ := FileSystem.mkdir_eq_some hnew
  obtain ⟨e, dir, m, j, hentry, hdir, hsearch, hfind, hj, rfl⟩ := FileSystem.mkdir_eq_some hmk
  have hnot := not_step_of_find hdir hfind
  have hj := FileSystem.not_known_of_next hj
  rcases h with rfl | ⟨d', n', i, hpath', h⟩
  · -- what lies below the entry cannot be made before the entry is
    have hsame : (e, m) = (d, n) := by
      rcases hq with hq | rfl
      · exact (entryOf_before hq hpath hentry).resolve_right hnot
      · rcases entryOf_below hpath hentry with ⟨-, hsame⟩ | ⟨-, hstep, -⟩
        · exact hsame
        · exact absurd hstep (not_step_of_find hdir₀ hfind₀)
    obtain ⟨rfl, rfl⟩ := Prod.mk.inj hsame
    exact Or.inr ⟨e, m, j, hpath, FileSystem.sprout_insert p hdir hsearch hfind hj⟩
  · obtain ⟨rfl, rfl⟩ := Prod.mk.inj (Option.some.inj (hpath'.symm.trans hpath))
    have hthere := h.grown.finds.entryOf hpath
    -- the entry itself is there and is not made again
    have hother : (e, m) ≠ (d', n') := by
      intro hsame
      obtain ⟨rfl, rfl⟩ := Prod.mk.inj hsame
      exact hnot ⟨i, h.step⟩
    rcases hq with hq | rfl
    · exact absurd ((entryOf_before hq hthere hentry).resolve_left hother) hnot
    · rcases entryOf_below hthere hentry with ⟨-, hsame⟩ | ⟨hm, -, front, he⟩
      · exact absurd hsame hother
      · have hi := (h.steady hpath).names.resolve h.tree.not_link
        obtain ⟨hfits, a, hstart, he⟩ := FileSystem.resolve_eq_some.1 he
        obtain ⟨b, left, hb, he⟩ := FileSystem.follow_append he
        obtain rfl : b = i :=
          Option.some.inj ((FileSystem.resolve_eq_some.2 ⟨hfits, a, hstart, hb⟩).symm.trans hi)
        exact Or.inr ⟨d', n', b, hpath,
          h.insert (reach_of_follow h.tree he) hdir hfind (hp m hm) hj⟩

/-- **All that calls make below a directory** that was not there lies below its entry. -/
theorem sprouted_creates {p : Name → Prop} {calls : List (List Name)}
    (hnew : (fs.mkdir supply path).isSome) (hp : ∀ names ∈ calls, ∀ n ∈ names, p n) :
    Sprouted p path fs (creates supply (calls.map (below path)) fs) := by
  refine creates_induction (fun path' hmem q hq fs₁ fs₂ h hmk => ?_) (Or.inl rfl)
  obtain ⟨names, hnames, rfl⟩ := List.mem_map.1 hmem
  rcases hq with rfl | hq
  · exact sprouted_mkdir hnew (hp names hnames) (Or.inr rfl) h hmk
  · rcases before_below hq with hq | ⟨front, hfront, rfl⟩
    · exact sprouted_mkdir hnew (by simp : ∀ n ∈ ([] : List Name), p n) (Or.inl hq) h hmk
    · exact sprouted_mkdir hnew (fun n hn => hp names hnames n (hfront.subset hn)) (Or.inr rfl) h
        hmk

theorem permissive_creates (hfs : fs.Permissive) : (creates supply paths fs).Permissive :=
  creates_induction (fun _ _ _ _ _ _ h hmk => h.mkdir hmk) hfs

/-! ### Removing what has been made -/

/-- **The entry and all that is below it are taken away**, and nothing else. -/
theorem agrees_of_Remove {p : Name → Prop} {d : Ino} {n : Name} {fuel : ℕ} {s : Session}
    (h : fs.Sprout p d n i fs') (hpath : fs.entryOf path = some (d, n))
    (hrun : Remove fuel path (Session.init fs') = some (true, s)) : fs.Agrees s.fs := by
  obtain ⟨opened, removed, heff, hwork, hdone⟩ := removes_Remove hrun
  obtain ⟨-, x, hx, hown⟩ := hdone rfl
  have hthere := h.grown.finds.entryOf hpath
  have hi := (h.steady hpath).names.resolve h.tree.not_link
  rw [heff.fs]
  refine h.agrees (Option.some.inj (hthere.symm.trans hown) ▸ hx) fun y hy => ?_
  have hroot : ∀ k, fs'.stat path = some k → k = i := fun k hk =>
    Option.some.inj ((FileSystem.resolve_of_stat hk).symm.trans hi)
  exact (hwork.reach h.tree hroot y hy).imp_left fun hy =>
    Option.some.inj (hy.symm.trans hthere)

/-- What the directory is after the calls, when it has been made. -/
theorem exists_sprout {p : Name → Prop} {calls : List (List Name)}
    (hnew : (fs.mkdir supply path).isSome) (hp : ∀ names ∈ calls, ∀ n ∈ names, p n)
    (hthere : Exists (creates supply (calls.map (below path)) fs) path) :
    ∃ d n i, fs.entryOf path = some (d, n) ∧
      fs.Sprout p d n i (creates supply (calls.map (below path)) fs) := by
  rcases sprouted_creates hnew hp with hsame | hsprout
  · obtain ⟨k, hk⟩ := Option.isSome_iff_exists.1 (hsame ▸ hthere : Exists fs path)
    rw [FileSystem.mkdir_eq_none_of_stat hk] at hnew
    cases hnew
  · exact hsprout

/-- Where the calls are given **visible names** only, no others are made. -/
theorem visible_of_calls {calls : List (List Name)} (hfs : fs.Permissive)
    (hnew : (fs.mkdir supply path).isSome)
    (hv : ∀ names ∈ calls, ∀ n ∈ names, visible n.chars)
    (hthere : Exists (creates supply (calls.map (below path)) fs) path) :
    ∀ i, (creates supply (calls.map (below path)) fs).Below path i →
      ∀ x ∈ (creates supply (calls.map (below path)) fs).entries i, visible x.1.chars := by
  obtain ⟨d, n, i, hpath, h⟩ := exists_sprout hnew hv hthere
  rintro k ⟨r, hr, hreach⟩
  have hstat := (permissive_creates hfs).stat_of_resolve h.isDirectory
    ((h.steady hpath).names.resolve h.tree.not_link)
  obtain rfl : i = r := Option.some.inj (hstat.symm.trans hr)
  exact h.names k hreach

end Run

/-- **`Remove` undoes `CreateDirectories`**: where a directory could be made and calls have made it,
with whatever they could make below it, `Remove` returns true and gives back the file system there
was, if and only if no name of a directory below it begins with a dot. -/
theorem Remove_creates_iff {supply : Supply} {fs : FileSystem} {path : Path} (hfs : fs.Permissive)
    (hnew : (fs.mkdir supply path).isSome) (calls : List (List Name))
    (hthere : Exists (creates supply (calls.map (below path)) fs) path) :
    (∃ fuel s, Remove fuel path (Session.init (creates supply (calls.map (below path)) fs)) =
        some (true, s) ∧ fs.Agrees s.fs) ↔
      ∀ i, (creates supply (calls.map (below path)) fs).Below path i →
        ∀ x ∈ (creates supply (calls.map (below path)) fs).entries i, visible x.1.chars := by
  obtain ⟨d, n, i, hpath, h⟩ := exists_sprout (p := fun _ => True) hnew (by simp) hthere
  have hfs' : (creates supply (calls.map (below path)) fs).Permissive := permissive_creates hfs
  generalize creates supply (calls.map (below path)) fs = fs' at h hfs'
  have hsteady := h.steady hpath
  have hstat : fs'.stat path = some i :=
    hfs'.stat_of_resolve h.isDirectory (hsteady.names.resolve h.tree.not_link)
  constructor
  · rintro ⟨fuel, s, hrun, -⟩ k ⟨r, hr, hreach⟩
    obtain rfl : i = r := Option.some.inj (hstat.symm.trans hr)
    have hlink : NoLink fs' path := by
      intro c m hentry k target hstep
      obtain ⟨rfl, rfl⟩ :=
        Prod.mk.inj (Option.some.inj ((h.grown.finds.entryOf hpath).symm.trans hentry))
      obtain rfl := Option.some.inj (h.step.symm.trans hstep)
      exact h.tree.not_link target
    exact (of_Remove_true hfs' h.tree hstat hlink hrun).1 k hreach
  · intro hv
    have hall : AllVisible fs' i := fun k hreach => hv k ⟨i, hstat, hreach⟩
    obtain ⟨fuel, s, hrun⟩ := removable_of_allVisible hfs' h.tree hall h.isDirectory
      (Session.init fs') path [] (FileSystem.without_nil fs').symm hsteady
    exact ⟨fuel, s, hrun, agrees_of_Remove h hpath hrun⟩

/-- Two directories are made and removed. -/
theorem Remove_creates_onlyRoot : ∃ fuel s, Remove fuel ['/', 'a']
    (Session.init (creates .any ([[.letter 'b' (by decide)]].map (below ['/', 'a'])) onlyRoot)) =
      some (true, s) ∧ onlyRoot.Agrees s.fs := by
  obtain ⟨fs, hfs⟩ := exists_mkdir_onlyRoot
  have hnew : (onlyRoot.mkdir .any ['/', 'a']).isSome := by rw [hfs]; rfl
  have hthere : Exists
      (creates .any ([[.letter 'b' (by decide)]].map (below ['/', 'a'])) onlyRoot) ['/', 'a'] := by
    have hrun : creates .any ([[.letter 'b' (by decide)]].map (below ['/', 'a'])) onlyRoot =
        (CreateDirectories.loop .any ['/', 'a', '/', 'b'] 1 3 fs).2 := by
      have hcall := createDirectory_of_mkdir hfs
      simp [creates, below, value, Name.letter, CreateDirectories, CreateDirectories.loop, hcall]
    obtain ⟨i, hi, -⟩ := FileSystem.stat_mkdir hfs
    rw [hrun, Exists, (grown_loop rfl).finds.stat hi]
    rfl
  exact (Remove_creates_iff onlyRoot_permissive hnew _ hthere).2
    (visible_of_calls onlyRoot_permissive hnew (by decide) hthere)

end Filesystem

end MToolkit

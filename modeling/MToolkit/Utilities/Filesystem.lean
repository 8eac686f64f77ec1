import MToolkit.Library.Posix

/-!
# Removing a directory

The functions `Exists`, `IsDirectory` and `Remove` of the class `Filesystem`
(`utilities/filesystem.cpp`). `Remove` opens the directory, takes what `readdir` returns name by
name, and removes the directory when it has come to the end. A name that begins with a dot is
passed over. `IsDirectory` follows links, so a link to a directory is opened too, and what is
removed then are entries of that directory.
-/

namespace MToolkit

open Posix

namespace Filesystem

/-- `access` with `F_OK` finds what `stat` finds. -/
def Exists (fs : FileSystem) (path : Path) : Bool := (fs.stat path).isSome

def IsDirectory (fs : FileSystem) (path : Path) : Bool :=
  if Exists fs path then
    match fs.stat path with
    | none => false
    | some status => fs.isDirectory status
  else false

/-- The path name of an entry of a directory, the local variable `value`. -/
def value (path : Path) (d_name : List Char) : Path :=
  if path.getLast? = some '/' then path ++ d_name else path ++ '/' :: d_name

/-- The entry is not passed over. -/
def visible (d_name : List Char) : Bool := d_name.head? ≠ some '.'

/-- The loop over the entries of the directory; `remove` is the function itself. -/
def Remove.loop (remove : Path → Session → Option (Bool × Session)) (path : Path) :
    List Component → Session → Option (Bool × Session)
  | [], s => some (true, s)
  | dirEvent :: rest, s =>
    if visible dirEvent.chars then
      if IsDirectory s.fs (value path dirEvent.chars) then
        match remove (value path dirEvent.chars) s with
        | none => none
        | some (false, s) => some (false, s)
        | some (true, s) => loop remove path rest s
      else
        match s.remove (value path dirEvent.chars) with
        | (false, s) => some (false, s)
        | (true, s) => loop remove path rest s
    else loop remove path rest s

/-- `Remove`, when its recursion is no deeper than the fuel. -/
def Remove : ℕ → Path → Session → Option (Bool × Session)
  | 0, _, _ => none
  | fuel + 1, path, s =>
    if IsDirectory s.fs path then
      match s.opendir path with
      | none => some (false, s.report ("mToolkit filesystem error:".toList ++ path))
      | some (dir, s) =>
        match Remove.loop (Remove fuel) path dir s with
        | none => none
        | some (false, s) => some (false, s)
        | some (true, s) => some (s.remove path)
    else some (s.remove path)

/-! ### Path names of entries -/

section Value

variable {fs : FileSystem} {path : Path} {d i : Ino} {n : Name} {cs : List Component}

theorem isDirectory_iff :
    IsDirectory fs path ↔ ∃ d, fs.stat path = some d ∧ fs.isDirectory d := by
  rw [IsDirectory, Exists]
  rcases fs.stat path with _ | d
  · simp
  · simp

/-- **The path name of an entry** has one more component. -/
@[simp] theorem components_value (path : Path) (n : Name) :
    components (value path n.chars) = components path ++ [.name n] := by
  rw [value]
  split_ifs with hslash
  · exact components_slashed n (by simpa [slashed] using hslash)
  · exact components_slash path n

@[simp] theorem slashed_value (path : Path) (n : Name) : slashed (value path n.chars) = false := by
  rw [value]
  split_ifs with hslash
  · exact slashed_name path n
  · rw [← List.singleton_append, ← List.append_assoc]
    exact slashed_name (path ++ ['/']) n

theorem length_value {d_name : List Char} (h : d_name ≠ []) :
    path.length < (value path d_name).length := by
  have := List.length_pos_iff.2 h
  rw [value]
  split_ifs <;> simp only [List.length_append, List.length_cons] <;> omega

/-- Up to its directory the path name of an entry leads where that of the directory does. -/
theorem resolve_value (hpath : path ≠ []) {d_name : List Char}
    (h : fs.resolve (value path d_name) cs = some i) : fs.resolve path cs = some i := by
  rw [value] at h
  split_ifs at h with hslash
  · exact FileSystem.resolve_append hpath h
  · exact FileSystem.resolve_append hpath h

/-- **The entry of a directory** that its path name ends in. -/
theorem entryOf_value (hpath : path ≠ []) {m : Name}
    (h : fs.entryOf (value path n.chars) = some (d, m)) :
    m = n ∧ fs.resolve path (components path) = some d := by
  obtain ⟨cs, hcs, hd⟩ := FileSystem.entryOf_eq_some.1 h
  rw [components_value] at hcs
  obtain ⟨rfl, hm⟩ := List.append_inj' hcs rfl
  simp only [List.cons.injEq, Component.name.injEq, and_true] at hm
  exact ⟨hm.symm, resolve_value hpath hd⟩

/-- **What the path name of an entry leads to** is what the entry names in the directory,
links followed. -/
theorem stat_value (hpath : path ≠ []) (h : fs.stat (value path n.chars) = some i) :
    ∃ d, fs.resolve path (components path) = some d ∧
      ∃ left, fs.follow left d [.name n] = some i := by
  rw [FileSystem.stat, parts, if_neg (by simp), components_value] at h
  obtain ⟨hfits, d, hstart, h⟩ := FileSystem.resolve_eq_some.1 h
  obtain ⟨e, left, hcs, hname⟩ := FileSystem.follow_append h
  exact ⟨e, resolve_value hpath (FileSystem.resolve_eq_some.2 ⟨hfits, d, hstart, hcs⟩), left, hname⟩

end Value

/-- Only names are taken, neither dot nor dot-dot. -/
theorem exists_name_of_visible {c : Component} (h : visible c.chars) : ∃ n, c = .name n := by
  rcases c with _ | _ | n
  · exact absurd h (by decide)
  · exact absurd h (by decide)
  · exact ⟨n, rfl⟩

end Filesystem

end MToolkit

import MToolkit.Library.PosixMkdir
import MToolkit.Utilities.Filesystem

/-!
# Creating directories

The functions `CreateDirectory` and `CreateDirectories` of the class `Filesystem`
(`utilities/filesystem.cpp`). `CreateDirectories` goes over the characters of the path name, makes
the directory that each part before a slash names, and at the last character the one of the
whole. A directory that cannot be made counts as created when something of its name exists.

Nothing that exists is touched (`MToolkit.Filesystem.Kept`). That a part before a slash exists but
is no directory comes to light in the next call; for the whole path name there is no next one, so
true may be returned for a file.
-/

namespace MToolkit

open Posix

namespace Filesystem

def CreateDirectory (supply : Supply) (path : Path) (fs : FileSystem) : Bool × FileSystem :=
  match fs.mkdir supply path with
  | some fs => (true, fs)
  | none => if !Exists fs path then (false, fs) else (true, fs)

/-- The loop over the characters, when so many are left. -/
def CreateDirectories.loop (supply : Supply) (path : Path) :
    ℕ → ℕ → FileSystem → Bool × FileSystem
  | 0, _, fs => (true, fs)
  | left + 1, i, fs =>
    if i = path.length - 1 then
      match CreateDirectory supply path fs with
      | (false, fs) => (false, fs)
      | (true, fs) => loop supply path left (i + 1) fs
    else if path[i]? = some '/' then
      if i = 0 then loop supply path left (i + 1) fs
      else
        match CreateDirectory supply (path.take i) fs with
        | (false, fs) => (false, fs)
        | (true, fs) => loop supply path left (i + 1) fs
    else loop supply path left (i + 1) fs

def CreateDirectories (supply : Supply) (path : Path) (fs : FileSystem) : Bool × FileSystem :=
  CreateDirectories.loop supply path path.length 0 fs

/-! ### What is to be shown -/

/-- **Nothing is removed or changed in kind**: every entry is kept, a path name that led to a file
leads to the same one, and each file is of the kind it was. -/
structure Kept (fs fs' : FileSystem) : Prop where
  entries : ∀ d, ∀ e ∈ fs.entries d, e ∈ fs'.entries d
  stat : ∀ path i, fs.stat path = some i → fs'.stat path = some i
  kind : ∀ i, (fs.node i ≠ none ∨ ∃ path, fs.stat path = some i) →
    (fs'.node i).map Node.kind = (fs.node i).map Node.kind

/-- **The report is true**: where true is returned, the path name and each part of it before a
slash names a directory. Nothing is lost in any case. -/
def Truthful (path : Path) (fs : FileSystem) (result : Bool × FileSystem) : Prop :=
  (result.1 = true →
    IsDirectory result.2 path ∧ ∀ q, Before q path → IsDirectory result.2 q) ∧
    Kept fs result.2

/-- Some of the directories are made that **parts of the path name before a slash** name. -/
def Made (supply : Supply) (path : Path) : FileSystem → FileSystem → Prop :=
  Relation.ReflTransGen fun fs fs' => ∃ q, Before q path ∧ fs.mkdir supply q = some fs'

theorem kept_of_grown {fs fs' : FileSystem} (h : fs.Grown fs') : Kept fs fs' where
  entries _ _ := h.entries
  stat _ _ := h.finds.stat
  kind _ hi := h.kind (hi.imp_right fun ⟨_, hstat⟩ => FileSystem.mentions_stat hstat)

section Calls

variable {supply : Supply} {path q : Path} {fs fs' fs₁ : FileSystem} {r : Bool} {i k left : ℕ}

/-! ### One directory -/

/-- What a call **changes and finds**. -/
theorem createDirectory_cases (h : CreateDirectory supply path fs = (r, fs')) :
    (fs.mkdir supply path = some fs' ∧ r = true) ∨ fs' = fs ∧ (r = true → Exists fs path) := by
  rw [CreateDirectory] at h
  split at h
  · rename_i hmk
    obtain ⟨rfl, rfl⟩ := Prod.mk.inj h
    exact Or.inl ⟨hmk, rfl⟩
  · split_ifs at h with hexists
    · obtain ⟨rfl, rfl⟩ := Prod.mk.inj h
      exact Or.inr ⟨rfl, by simp⟩
    · obtain ⟨rfl, rfl⟩ := Prod.mk.inj h
      exact Or.inr ⟨rfl, fun _ => by simpa using hexists⟩

theorem grown_createDirectory (h : CreateDirectory supply path fs = (r, fs')) : fs.Grown fs' := by
  rcases createDirectory_cases h with ⟨hmk, -⟩ | ⟨rfl, -⟩
  · exact FileSystem.grown_mkdir hmk
  · exact .refl _

/-- What exists is left alone. -/
theorem createDirectory_of_stat (h : fs.stat path = some i) :
    CreateDirectory supply path fs = (true, fs) := by
  have hexists : Exists fs path := by rw [Exists, h]; rfl
  rw [CreateDirectory, FileSystem.mkdir_eq_none_of_stat h]
  simp [hexists]

theorem createDirectory_of_mkdir (h : fs.mkdir supply path = some fs') :
    CreateDirectory supply path fs = (true, fs') := by
  rw [CreateDirectory, h]

/-! ### The loop -/

/-- The path name that a directory is created for **at a character**, if there is one. -/
def target (path : Path) (i : ℕ) : Option Path :=
  if i = path.length - 1 then some path
  else if path[i]? = some '/' ∧ i ≠ 0 then some (path.take i)
  else none

/-- At a slash it is the part that ends before it. -/
theorem before_take (hslash : path[i]? = some '/') (hi : i ≠ 0) : Before (path.take i) path := by
  obtain ⟨hlt, hget⟩ := List.getElem?_eq_some_iff.1 hslash
  refine ⟨?_, path.drop (i + 1), ?_⟩
  · rw [Ne, List.take_eq_nil_iff]
    rintro (rfl | rfl)
    · exact hi rfl
    · cases hslash
  · rw [← hget, ← List.drop_eq_getElem_cons hlt, List.take_append_drop]

/-- At the last character there is one. -/
theorem ne_last_of_none (h : target path i = none) : i ≠ path.length - 1 := by
  rintro rfl
  simp [target] at h

theorem target_cases (h : target path i = some q) :
    (i = path.length - 1 ∧ q = path) ∨ i ≠ path.length - 1 ∧ Before q path ∧ q.length = i := by
  rw [target] at h
  split_ifs at h with hlast hslash
  · exact Or.inl ⟨hlast, (Option.some.inj h).symm⟩
  · obtain rfl := Option.some.inj h
    obtain ⟨hlt, -⟩ := List.getElem?_eq_some_iff.1 hslash.1
    exact Or.inr ⟨hlast, before_take hslash.1 hslash.2, List.length_take_of_le (Nat.le_of_lt hlt)⟩

/-- Every part before a slash is **created at that slash**, unless the slash is the last
character. -/
theorem target_of_before (hq : Before q path) (hlt : q.length ≠ path.length - 1) :
    target path q.length = some q := by
  obtain ⟨hne, rest, rfl⟩ := hq
  rw [target, if_neg hlt, if_pos ⟨by simp, by simpa using hne⟩]
  simp

theorem loop_of_none (h : target path i = none) :
    CreateDirectories.loop supply path (left + 1) i fs =
      CreateDirectories.loop supply path left (i + 1) fs := by
  rw [target] at h
  rw [CreateDirectories.loop]
  split_ifs at h with hlast hslash
  rw [if_neg hlast]
  split_ifs with hchar hi
  · rfl
  · exact absurd ⟨hchar, hi⟩ hslash
  · rfl

/-- **One round** creates the directory of its path name. -/
theorem loop_of_some (h : target path i = some q) :
    CreateDirectories.loop supply path (left + 1) i fs =
      match CreateDirectory supply q fs with
      | (false, fs) => (false, fs)
      | (true, fs) => CreateDirectories.loop supply path left (i + 1) fs := by
  rw [target] at h
  rw [CreateDirectories.loop]
  split_ifs at h with hlast hslash
  · obtain rfl := Option.some.inj h
    rw [if_pos hlast]
  · obtain rfl := Option.some.inj h
    rw [if_neg hlast, if_pos hslash.1, if_neg hslash.2]

/-- **What a round does**: nothing, or one call, after which the loop ends or goes on. -/
theorem loop_cases (h : CreateDirectories.loop supply path (left + 1) i fs = (r, fs')) :
    (target path i = none ∧ CreateDirectories.loop supply path left (i + 1) fs = (r, fs')) ∨
      ∃ q, target path i = some q ∧
        ((r = false ∧ CreateDirectory supply q fs = (false, fs')) ∨
          ∃ fs₁, CreateDirectory supply q fs = (true, fs₁) ∧
            CreateDirectories.loop supply path left (i + 1) fs₁ = (r, fs')) := by
  rcases htarget : target path i with _ | q
  · rw [loop_of_none htarget] at h
    exact Or.inl ⟨rfl, h⟩
  · rw [loop_of_some htarget] at h
    refine Or.inr ⟨q, rfl, ?_⟩
    rcases hcall : CreateDirectory supply q fs with ⟨_ | _, fs₁⟩
    · rw [hcall] at h
      obtain ⟨rfl, rfl⟩ := Prod.mk.inj h
      exact Or.inl ⟨rfl, rfl⟩
    · rw [hcall] at h
      exact Or.inr ⟨fs₁, rfl, h⟩

theorem grown_loop (h : CreateDirectories.loop supply path left i fs = (r, fs')) :
    fs.Grown fs' := by
  induction left generalizing i fs with
  | zero =>
    obtain ⟨-, rfl⟩ := Prod.mk.inj h
    exact .refl _
  | succ left ih =>
    rcases loop_cases h with ⟨-, h⟩ | ⟨q, -, ⟨-, hcall⟩ | ⟨fs₁, hcall, h⟩⟩
    · exact ih h
    · exact grown_createDirectory hcall
    · exact (grown_createDirectory hcall).trans (ih h)

/-- **When true is returned**, the last call was for the whole path name, in a file system where
only parts of it had been made. -/
theorem exists_last_call (hlen : left + i = path.length) (hpos : 0 < left)
    (h : CreateDirectories.loop supply path left i fs = (true, fs')) :
    ∃ fs₁, Made supply path fs fs₁ ∧ CreateDirectory supply path fs₁ = (true, fs') := by
  induction left generalizing i fs with
  | zero => omega
  | succ left ih =>
    rcases loop_cases h with ⟨htarget, h⟩ | ⟨q, htarget, ⟨hfalse, -⟩ | ⟨fs₁, hcall, h⟩⟩
    · have hi := ne_last_of_none htarget
      exact ih (by omega) (by omega) h
    · cases hfalse
    · rcases target_cases htarget with ⟨hi, rfl⟩ | ⟨hi, hq, -⟩
      · -- no character is left
        obtain rfl : left = 0 := by omega
        obtain ⟨-, rfl⟩ := Prod.mk.inj h
        exact ⟨fs, .refl, hcall⟩
      · obtain ⟨fs₂, hmade, hend⟩ := ih (by omega) (by omega) h
        refine ⟨fs₂, ?_, hend⟩
        rcases createDirectory_cases hcall with ⟨hmk, -⟩ | ⟨rfl, -⟩
        · exact .head ⟨q, hq, hmk⟩ hmade
        · exact hmade

/-! ### Where only parts of the path name are made -/

/-- Once **every part is there**, none can be made. -/
theorem eq_of_made (hdone : ∀ q, Before q path → (fs.stat q).isSome)
    (h : Made supply path fs fs') : fs' = fs := by
  rcases Relation.ReflTransGen.cases_head h with rfl | ⟨fs₁, ⟨q, hq, hmk⟩, -⟩
  · rfl
  · obtain ⟨i, hi⟩ := Option.isSome_iff_exists.1 (hdone q hq)
    rw [FileSystem.mkdir_eq_none_of_stat hi] at hmk
    cases hmk

/-- Two parts of one path name: the shorter is a part of the longer. -/
theorem before_of_lt {p : Path} (hq : Before q path) (hp : Before p path)
    (hlt : q.length < p.length) : Before q p := by
  obtain ⟨hne, rest, hrest⟩ := hq
  obtain ⟨-, rest', hrest'⟩ := hp
  have hq' : q ++ ['/'] <+: path := ⟨rest, by simp [hrest]⟩
  have hp' : p <+: path := ⟨'/' :: rest', hrest'.symm⟩
  have hle : (q ++ ['/']).length ≤ p.length := by simpa using Nat.succ_le_of_lt hlt
  obtain ⟨back, hback⟩ := List.prefix_of_prefix_length_le hq' hp' hle
  exact ⟨hne, back, by simpa using hback.symm⟩

theorem eq_of_length_eq {p : Path} (hp : Before p path) (hq : Before q path)
    (heq : p.length = q.length) : p = q := by
  obtain ⟨-, rest, hpath⟩ := hp
  obtain ⟨-, rest', hpath'⟩ := hq
  exact (List.append_inj (hpath.symm.trans hpath') heq).1

/-- **The next part is made by the call for it**, when it is made at all and all shorter ones are
there: a longer one can only be made in it. -/
theorem createDirectory_of_made (hq : Before q path) (hk : fs'.stat path = some k)
    (hdone : ∀ p, Before p path → p.length < q.length → (fs.stat p).isSome)
    (h : Made supply path fs fs') : ∃ fs₁, CreateDirectory supply q fs = (true, fs₁) ∧
      Made supply path fs₁ fs' ∧ (fs₁.stat q).isSome := by
  rcases hstat : fs.stat q with _ | j
  · have hmkdir : ∃ fs₁, fs.mkdir supply q = some fs₁ ∧ Made supply path fs₁ fs' := by
      rcases Relation.ReflTransGen.cases_head h with rfl | ⟨fs₁, ⟨p, hp, hmk⟩, hrest⟩
      · obtain ⟨d, hd, -⟩ := FileSystem.stat_before hq hk
        rw [hstat] at hd
        cases hd
      · rcases Nat.lt_trichotomy p.length q.length with hlt | heq | hgt
        · obtain ⟨j, hj⟩ := Option.isSome_iff_exists.1 (hdone p hp hlt)
          rw [FileSystem.mkdir_eq_none_of_stat hj] at hmk
          cases hmk
        · exact ⟨fs₁, eq_of_length_eq hp hq heq ▸ hmk, hrest⟩
        · rcases FileSystem.mkdir_before (before_of_lt hq hp hgt) hmk with hsome | hsame
          · rw [hstat] at hsome
            cases hsome
          · exact ⟨fs₁, hsame, hrest⟩
    obtain ⟨fs₁, hmk, hrest⟩ := hmkdir
    obtain ⟨i, hi, -⟩ := FileSystem.stat_mkdir hmk
    exact ⟨fs₁, createDirectory_of_mkdir hmk, hrest, by rw [hi]; rfl⟩
  · exact ⟨fs, createDirectory_of_stat hstat, h, by rw [hstat]; rfl⟩

/-- So **the loop makes what can be made**, and returns true for whatever the path name leads to
then. -/
theorem loop_of_made (hslashed : ¬ slashed path) (hk : fs'.stat path = some k)
    (hlen : left + i = path.length) (hpos : 0 < left)
    (hdone : ∀ q, Before q path → q.length < i → (fs.stat q).isSome)
    (h : Made supply path fs fs') :
    CreateDirectories.loop supply path left i fs = (true, fs') := by
  have hshort : ∀ q, Before q path → q.length < path.length - 1 := by
    rintro q ⟨-, rest, rfl⟩
    rcases rest with _ | ⟨c, rest⟩
    · -- then a slash would come last
      simp [slashed] at hslashed
    · simp only [List.length_append, List.length_cons]
      omega
  induction left generalizing i fs with
  | zero => omega
  | succ left ih =>
    rcases htarget : target path i with _ | q
    · have hi := ne_last_of_none htarget
      rw [loop_of_none htarget]
      refine ih (by omega) (by omega) (fun q hq hlt => ?_) h
      rcases Nat.lt_succ_iff_lt_or_eq.1 hlt with hlt | rfl
      · exact hdone q hq hlt
      · rw [target_of_before hq hi] at htarget
        cases htarget
    · rw [loop_of_some htarget]
      rcases target_cases htarget with ⟨hi, rfl⟩ | ⟨hi, hq, rfl⟩
      · obtain rfl := eq_of_made (fun p hp => hdone p hp (hi ▸ hshort p hp)) h
        obtain rfl : left = 0 := by omega
        rw [createDirectory_of_stat hk]
        rfl
      · obtain ⟨fs₁, hcall, hmade, hthere⟩ := createDirectory_of_made hq hk hdone h
        rw [hcall]
        refine ih (by omega) (by omega) (fun p hp hlt => ?_) hmade
        rcases Nat.lt_succ_iff_lt_or_eq.1 hlt with hlt | heq
        · obtain ⟨j, hj⟩ := Option.isSome_iff_exists.1 (hdone p hp hlt)
          rw [(grown_createDirectory hcall).finds.stat hj]
          rfl
        · rwa [eq_of_length_eq hp hq heq]

end Calls

/-- **What is reported is true exactly if no file takes the place of the last directory**: the
path name leads to no file but a directory, neither from the beginning nor once directories are
made that parts of it before a slash name. -/
theorem CreateDirectories_truthful_iff (supply : Supply) (fs : FileSystem) {path : Path}
    (hpath : path ≠ []) :
    Truthful path fs (CreateDirectories supply path fs) ↔
      ∀ fs', Made supply path fs fs' → ∀ i, fs'.stat path = some i → fs'.isDirectory i := by
  have hpos := List.length_pos_iff.2 hpath
  rcases hrun : CreateDirectories supply path fs with ⟨r, fs₁⟩
  constructor
  · rintro ⟨htrue, -⟩ fs' hmade i hi
    by_cases hslashed : slashed path
    · exact FileSystem.isDirectory_of_slashed hslashed hi
    · have hend := loop_of_made hslashed hi (Nat.add_zero _) hpos (by simp) hmade
      obtain ⟨rfl, rfl⟩ := Prod.mk.inj (hrun.symm.trans hend)
      obtain ⟨d, hd, hdir⟩ := isDirectory_iff.1 (htrue rfl).1
      rwa [Option.some.inj (hi.symm.trans hd)]
  · refine fun hcond => ⟨?_, kept_of_grown (grown_loop hrun)⟩
    rintro rfl
    obtain ⟨fs₂, hmade, hlast⟩ := exists_last_call (Nat.add_zero _) hpos hrun
    obtain ⟨i, hi, hdir⟩ : ∃ i, fs₁.stat path = some i ∧ fs₁.isDirectory i := by
      rcases createDirectory_cases hlast with ⟨hmk, -⟩ | ⟨rfl, hexists⟩
      · exact FileSystem.stat_mkdir hmk
      · obtain ⟨i, hi⟩ := Option.isSome_iff_exists.1 (hexists rfl)
        exact ⟨i, hi, hcond _ hmade i hi⟩
    exact ⟨isDirectory_iff.2 ⟨i, hi, hdir⟩, fun q hq =>
      isDirectory_iff.2 (FileSystem.stat_before hq hi)⟩

/-- The file `x` in the root directory. -/
def plainFile : FileSystem where
  node
    | 0 => some (.directory ⟨0, [(.letter 'x' (by decide), 1)], true, true, true⟩)
    | 1 => some (.regular [])
    | _ => none
  root := 0
  cwd := 0
  symloopMax := 40
  pathMax := some 4096

/-- There are serial numbers left. -/
theorem exists_mkdir_plainFile :
    ∃ fs, plainFile.mkdir .any ['/', '/', 'a', '/'] = some fs := by
  have hfree : ¬plainFile.Mentions 2 := by
    rintro (h | h | ⟨_ | _ | d, dir, hd, h⟩)
    · cases h
    · cases h
    · cases hd
      rcases h with h | ⟨n, h⟩
      · cases h
      · cases List.mem_singleton.1 h
    · cases hd
    · cases hd
  obtain ⟨i, hnext⟩ : ∃ i, Supply.any.next plainFile = some i := ⟨_, dif_pos ⟨2, rfl, hfree⟩⟩
  have hentry : plainFile.entryOf ['/', '/', 'a', '/'] = some (0, .letter 'a' (by decide)) := by
    decide
  have hroot : plainFile.node 0 = some (.directory
      ⟨0, [(.letter 'x' (by decide), 1)], true, true, true⟩) := rfl
  rw [FileSystem.mkdir, hentry]
  simp only [hroot, hnext]
  exact ⟨_, if_pos (by decide)⟩

/-- With a slash at the end no file takes the place of the directory: it is made, and true is
returned. -/
theorem CreateDirectories_truthful_slash : ∃ fs,
    CreateDirectories .any ['/', '/', 'a', '/'] plainFile = (true, fs) ∧
      IsDirectory fs ['/', '/', 'a', '/'] ∧
      Truthful ['/', '/', 'a', '/'] plainFile (true, fs) := by
  obtain ⟨fs, hmk⟩ := exists_mkdir_plainFile
  have hrun : CreateDirectories .any ['/', '/', 'a', '/'] plainFile = (true, fs) := by
    have hroot : plainFile.stat ['/'] = some 0 := by decide
    simp [CreateDirectories, CreateDirectories.loop, createDirectory_of_stat hroot,
      createDirectory_of_mkdir hmk]
  have htruthful := (CreateDirectories_truthful_iff .any plainFile
    (List.cons_ne_nil '/' ['/', 'a', '/'])).2 fun _ _ _ hi =>
      FileSystem.isDirectory_of_slashed (by decide) hi
  rw [hrun] at htruthful
  exact ⟨fs, hrun, (htruthful.1 rfl).1, htruthful⟩

/-- **True is returned for a file.** -/
theorem CreateDirectories_plainFile :
    (CreateDirectories .any ['/', 'x'] plainFile).1 = true ∧
      ¬ IsDirectory (CreateDirectories .any ['/', 'x'] plainFile).2 ['/', 'x'] ∧
      ¬ Truthful ['/', 'x'] plainFile (CreateDirectories .any ['/', 'x'] plainFile) := by
  have hstat : plainFile.stat ['/', 'x'] = some 1 := by decide
  have hrun : CreateDirectories .any ['/', 'x'] plainFile = (true, plainFile) :=
    loop_of_made (by decide) hstat rfl (by decide) (by simp) .refl
  have hfile : ¬ IsDirectory plainFile ['/', 'x'] := by decide
  rw [hrun]
  exact ⟨rfl, hfile, fun htrue => hfile (htrue.1 rfl).1⟩

end Filesystem

end MToolkit

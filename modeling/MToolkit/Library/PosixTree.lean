import Mathlib.Data.List.Nodup
import MToolkit.Library.Posix

/-!
# Directory trees

A directory tree without symbolic links (`Posix.FileSystem.Tree`), in a file system that refuses
nothing (`Posix.FileSystem.Permissive`): the entries of each of its directories can be found and
removed, and no directory lies below itself.

A path name that is to stay good while the tree is being removed must not run through the tree
(`Posix.FileSystem.Steady`).
-/

namespace Posix

namespace FileSystem

/-- **Nothing is refused**: no path name is too long, and no directory is closed to the
process. -/
structure Permissive (fs : FileSystem) : Prop where
  pathMax : fs.pathMax = none
  modes : ∀ i dir, fs.node i = some (.directory dir) →
    dir.readable ∧ dir.writable ∧ dir.searchable

/-- **A directory tree** without symbolic links. -/
inductive Tree (fs : FileSystem) : Ino → Prop
  | regular {i : Ino} {content : List UInt8} (h : fs.node i = some (.regular content)) : Tree fs i
  | directory {i : Ino} {dir : Directory} (h : fs.node i = some (.directory dir))
      (distinct : (dir.entries.map (·.1)).Nodup) (below : ∀ e ∈ dir.entries, Tree fs e.2) :
      Tree fs i

/-- The path name ends in an entry that **names the file**, and not a link to it. -/
def Names (fs : FileSystem) (path : Path) (i : Ino) : Prop :=
  ∃ d n, fs.entryOf path = some (d, n) ∧ fs.step d (.name n) = some i

/-- The path name names the file **whatever is taken out of its subtree**. -/
def Steady (fs : FileSystem) (path : Path) (i : Ino) : Prop :=
  ∀ es : List (Ino × Name), (∀ e ∈ es, Relation.ReflTransGen fs.Child i e.1) →
    (fs.without es).Names path i

variable {fs : FileSystem} {es es' : List (Ino × Name)} {budget : ℕ} {d e i j : Ino} {n : Name}
  {c : Component} {cs xs ys : List Component} {path : Path}

/-! ### Without some entries -/

theorem child_of_without (h : (fs.without es).Child d i) : fs.Child d i := by
  obtain ⟨n, hn⟩ := h
  rw [entries_without] at hn
  exact ⟨n, (List.mem_filter.1 hn).1⟩

theorem reach_of_without (h : Relation.ReflTransGen (fs.without es).Child d i) :
    Relation.ReflTransGen fs.Child d i :=
  Relation.ReflTransGen.mono (fun _ _ => child_of_without) _ _ h

theorem mem_entries_without {x : Name × Ino} :
    x ∈ (fs.without es).entries d ↔ x ∈ fs.entries d ∧ (d, x.1) ∉ es := by
  rw [entries_without, List.mem_filter, decide_eq_true_eq]

/-- Taking away **what is gone already** changes nothing. -/
theorem without_absorb (h : ∀ x ∈ es, ∀ y ∈ fs.entries x.1, y.1 = x.2 → x ∈ es') :
    (fs.without es).without es' = fs.without es' := by
  rw [without_append]
  simp only [without, FileSystem.mk.injEq, and_true]
  funext i
  rcases hi : fs.node i with _ | (dir | _ | _)
  · rfl
  · have hsame : ∀ y ∈ dir.entries, (i, y.1) ∈ es ++ es' ↔ (i, y.1) ∈ es' := by
      intro y hy
      rw [List.mem_append]
      refine ⟨fun hmem => hmem.elim (fun hmem => ?_) id, Or.inr⟩
      exact h _ hmem y (by rwa [entries, hi]) rfl
    simp only [Option.map_some, Node.without, Directory.without]
    congr 3
    exact List.filter_congr fun y hy => by rw [decide_eq_decide.2 (hsame y hy)]
  · rfl
  · rfl

theorem Permissive.without (h : fs.Permissive) (es : List (Ino × Name)) :
    (fs.without es).Permissive where
  pathMax := h.pathMax
  modes := by
    intro i dir' hdir'
    obtain ⟨dir, hdir, rfl⟩ := node_without_eq_directory.1 hdir'
    exact h.modes i dir hdir

theorem isDirectory_without : (fs.without es).isDirectory d = fs.isDirectory d := by
  rcases h : fs.node d with _ | (dir | _ | _) <;> simp [isDirectory, without, h, Node.without]

theorem names_of_without (h : (fs.without es).Names path i) : fs.Names path i := by
  obtain ⟨d, n, hentry, hstep⟩ := h
  exact ⟨d, n, entryOf_of_without hentry, step_of_without hstep⟩

/-- A path name that runs past a subtree still does when some of the subtree is gone. -/
theorem Steady.without (h : fs.Steady path i)
    (hes : ∀ x ∈ es, Relation.ReflTransGen fs.Child i x.1) : (fs.without es).Steady path i := by
  intro es' hes'
  rw [without_append]
  refine h _ fun x hx => ?_
  rcases List.mem_append.1 hx with hx | hx
  · exact hes x hx
  · exact reach_of_without (hes' x hx)

theorem Steady.names (h : fs.Steady path i) : fs.Names path i := by
  simpa using h [] (by simp)

/-! ### Resolution -/

/-- Components that are resolved with no link to follow may come **behind others**. -/
theorem follow_append_of (h : fs.follow budget d xs = some e)
    (hys : ∀ left, fs.follow left e ys = some i) : fs.follow budget d (xs ++ ys) = some i := by
  induction budget using Nat.strongRecOn generalizing d xs with
  | _ budget ihb =>
    induction xs generalizing d with
    | nil =>
      obtain rfl : d = e := by cases budget <;> exact Option.some.inj h
      exact hys budget
    | cons c xs ih =>
      obtain ⟨f, hstep, h⟩ := follow_cons.1 h
      refine follow_cons.2 ⟨f, hstep, ?_⟩
      rcases h with ⟨target, hlink, left, d', rfl, hstart, h⟩ | ⟨hlink, h⟩
      · refine Or.inl ⟨target, hlink, left, d', rfl, hstart, ?_⟩
        have hgo := ihb left (Nat.lt_succ_self left) h
        rwa [List.append_assoc] at hgo
      · exact Or.inr ⟨hlink, ih h⟩

/-- One component that leads to no link. -/
theorem follow_singleton (h : fs.step d c = some i) (hi : ∀ target, fs.node i ≠ some (.link target))
    (left : ℕ) : fs.follow left d [c] = some i :=
  follow_cons.2 ⟨i, h, Or.inr ⟨hi, by cases left <;> rfl⟩⟩

theorem resolve_concat (h : fs.resolve path cs = some d) (hstep : fs.step d c = some i)
    (hi : ∀ target, fs.node i ≠ some (.link target)) :
    fs.resolve path (cs ++ [c]) = some i := by
  obtain ⟨hfits, e, hstart, h⟩ := resolve_eq_some.1 h
  exact resolve_eq_some.2 ⟨hfits, e, hstart, follow_append_of h (follow_singleton hstep hi)⟩

theorem isDirectory_eq_true : fs.isDirectory d ↔ ∃ dir, fs.node d = some (.directory dir) := by
  rw [isDirectory]
  split <;> simp_all

theorem not_link_of_isDirectory (h : fs.isDirectory d) (target : Path) :
    fs.node d ≠ some (.link target) := by
  obtain ⟨dir, hdir⟩ := isDirectory_eq_true.1 h
  simp [hdir]

/-- Where nothing is refused, a slash behind the path name of a directory does no harm. -/
theorem Permissive.stat_of_resolve (hfs : fs.Permissive) (hd : fs.isDirectory d)
    (h : fs.resolve path (components path) = some d) : fs.stat path = some d := by
  rw [stat, parts]
  split_ifs
  · obtain ⟨dir, hdir⟩ := isDirectory_eq_true.1 hd
    refine resolve_concat h ?_ (not_link_of_isDirectory hd)
    simp [step, hdir, (hfs.modes d dir hdir).2.2]
  · exact h

/-- Nor is a longer path name refused. -/
theorem Permissive.resolve_append (hfs : fs.Permissive) (h : fs.resolve path cs = some i)
    (rest : Path) : fs.resolve (path ++ rest) cs = some i := by
  obtain ⟨-, d, hstart, h⟩ := resolve_eq_some.1 h
  refine resolve_eq_some.2 ⟨by simp [fits, hfs.pathMax], d, ?_, h⟩
  rcases path with _ | ⟨c, path⟩
  · cases hstart
  · exact hstart

theorem Names.resolve (h : fs.Names path i) (hi : ∀ target, fs.node i ≠ some (.link target)) :
    fs.resolve path (components path) = some i := by
  obtain ⟨d, n, hentry, hstep⟩ := h
  obtain ⟨cs, hcs, hd⟩ := entryOf_eq_some.1 hentry
  rw [hcs]
  exact resolve_concat hd hstep hi

/-- The entry a path name ends in, when it is no link, is **what the path name leads to**. -/
theorem step_of_stat (hstat : fs.stat path = some i) (hentry : fs.entryOf path = some (d, n))
    (hlink : ∀ j target, fs.step d (.name n) = some j → fs.node j ≠ some (.link target)) :
    fs.step d (.name n) = some i := by
  obtain ⟨cs, hcs, hd⟩ := entryOf_eq_some.1 hentry
  have h := resolve_of_stat hstat
  rw [hcs] at h
  obtain ⟨hfits, e, hstart, h⟩ := resolve_eq_some.1 h
  obtain ⟨d', left, hd', h⟩ := follow_append h
  obtain rfl : d' = d :=
    Option.some.inj ((resolve_eq_some.2 ⟨hfits, e, hstart, hd'⟩).symm.trans hd)
  obtain ⟨j, hstep, ⟨target, htarget, -⟩ | ⟨-, h⟩⟩ := follow_cons.1 h
  · exact absurd htarget (hlink j target hstep)
  · obtain rfl : j = i := by cases left <;> exact Option.some.inj h
    exact hstep

/-! ### Trees -/

theorem Tree.not_link (h : fs.Tree i) (target : Path) : fs.node i ≠ some (.link target) := by
  rcases h with h | h
  · simp [h]
  · simp [h]

theorem Tree.child (h : fs.Tree d) (hchild : fs.Child d i) : fs.Tree i := by
  obtain ⟨n, hn⟩ := hchild
  rcases h with h | ⟨h, -, below⟩
  · simp [entries, h] at hn
  · rw [entries, h] at hn
    exact below _ hn

theorem Tree.reach (h : fs.Tree d) (hreach : Relation.ReflTransGen fs.Child d i) : fs.Tree i := by
  induction hreach with
  | refl => exact h
  | tail _ hchild ih => exact ih.child hchild

/-- **No directory of a tree lies below itself.** -/
theorem Tree.acyclic (h : fs.Tree d) : ¬ Relation.TransGen fs.Child d d := by
  induction h with
  | regular h =>
    intro hcycle
    obtain ⟨i, ⟨n, hn⟩, -⟩ := Relation.TransGen.head'_iff.1 hcycle
    simp [entries, h] at hn
  | directory h distinct below ih =>
    intro hcycle
    obtain ⟨i, ⟨n, hn⟩, hreach⟩ := Relation.TransGen.head'_iff.1 hcycle
    -- the same circle, run through from the entry
    refine ih (n, i) (by rwa [entries, h] at hn) (Relation.TransGen.tail' hreach ⟨n, hn⟩)

theorem Tree.without (h : fs.Tree i) (es : List (Ino × Name)) : (fs.without es).Tree i := by
  induction h with
  | regular h => exact .regular (by simp only [FileSystem.without, h]; rfl)
  | directory h distinct below ih =>
    refine .directory (node_without_eq_directory.2 ⟨_, h, rfl⟩) ?_ fun e he => ?_
    · exact distinct.sublist (List.filter_sublist.map _)
    · exact ih e (List.mem_filter.1 he).1

theorem find_of_mem {dir : Directory} (distinct : (dir.entries.map (·.1)).Nodup)
    (h : (n, i) ∈ dir.entries) : dir.find n = some i := by
  have hsome : (dir.entries.find? (·.1 = n)).isSome := by
    rw [List.find?_isSome]
    exact ⟨(n, i), h, by simp⟩
  obtain ⟨⟨m, j⟩, hfind⟩ := Option.isSome_iff_exists.1 hsome
  obtain rfl : m = n := by simpa using List.find?_some hfind
  -- the names are distinct, so what is found is the entry itself
  have heq : (m, j) = (m, i) :=
    List.inj_on_of_nodup_map distinct (List.mem_of_find?_eq_some hfind) h rfl
  rw [Directory.find, hfind, heq]
  rfl

/-- **Every entry of a tree is found.** -/
theorem Tree.step (h : fs.Tree d) (hfs : fs.Permissive) (hn : (n, i) ∈ fs.entries d) :
    fs.step d (.name n) = some i := by
  rcases h with h | ⟨h, distinct, -⟩
  · simp [entries, h] at hn
  · rw [entries, h] at hn
    simp [FileSystem.step, h, (hfs.modes d _ h).2.2, find_of_mem distinct hn]

/-! ### The calls on a tree -/

/-- The entry that is taken away names nothing that has entries. -/
theorem entries_of_remove (h : fs.remove path = some (d, n)) :
    ∃ i, fs.step d (.name n) = some i ∧ fs.entries i = [] := by
  rw [remove] at h
  split at h
  · cases h
  · rename_i d' n' _
    rcases hi : fs.step d' (.name n') with _ | i
    · simp [hi] at h
    · simp only [hi, Option.bind_some] at h
      split at h
      · cases h
      · rename_i dir hdir
        split_ifs at h with hok
        obtain ⟨rfl, rfl⟩ := Prod.mk.inj (Option.some.inj h)
        refine ⟨i, hi, ?_⟩
        simpa [entries, hdir] using (Bool.and_eq_true_iff.1 hok).2
      · rename_i node hnode hdir
        split_ifs at h
        obtain ⟨rfl, rfl⟩ := Prod.mk.inj (Option.some.inj h)
        refine ⟨i, hi, ?_⟩
        rcases node with dir | _ | _
        · exact absurd rfl (hnode dir)
        · simp [entries, hdir]
        · simp [entries, hdir]

theorem Permissive.writable (hfs : fs.Permissive) (h : fs.step d c = some i) :
    fs.writable d := by
  obtain ⟨dir, hdir⟩ := isDirectory_eq_true.1 (isDirectory_of_step h)
  simp [FileSystem.writable, hdir, (hfs.modes d dir hdir).2.1]

/-- **An empty directory can be removed.** -/
theorem Permissive.remove_directory (hfs : fs.Permissive) (h : fs.Names path i)
    (hdir : fs.isDirectory i) (hempty : fs.entries i = []) : (fs.remove path).isSome := by
  obtain ⟨d, n, hentry, hstep⟩ := h
  obtain ⟨dir, hi⟩ := isDirectory_eq_true.1 hdir
  rw [entries, hi] at hempty
  simp [remove, hentry, hstep, hi, hfs.writable hstep, show dir.entries = [] from hempty]

/-- **A file can be removed.** -/
theorem Permissive.remove_regular (hfs : fs.Permissive) (h : fs.Names path i)
    {content : List UInt8} (hi : fs.node i = some (.regular content)) (hslash : ¬ slashed path) :
    (fs.remove path).isSome := by
  obtain ⟨d, n, hentry, hstep⟩ := h
  simp [remove, hentry, hstep, hi, hfs.writable hstep, hslash]

/-- What the removed entries named **had been emptied** before. -/
def Emptied (fs : FileSystem) (es : List (Ino × Name)) : Prop :=
  ∀ x ∈ es, ∀ i, fs.step x.1 (.name x.2) = some i → ∀ y ∈ fs.entries i, (i, y.1) ∈ es

/-- **An entry that named a tree** is not removed before the whole tree is. -/
theorem Tree.gone (h : fs.Tree d) (hfs : fs.Permissive) (hes : fs.Emptied es) {x : Ino × Name}
    (hx : x ∈ es) (hstep : fs.step x.1 (.name x.2) = some d)
    (hreach : Relation.ReflTransGen fs.Child d i) : ∀ y ∈ fs.entries i, (i, y.1) ∈ es := by
  induction hreach with
  | refl => exact hes x hx d hstep
  | tail hreach hchild ih =>
    obtain ⟨n, hn⟩ := hchild
    exact hes _ (ih _ hn) _ ((h.reach hreach).step hfs hn)

end FileSystem

/-! ### A process at work -/

namespace Session

/-- One call of a process. -/
inductive Call : Session → Session → Prop
  | opendir {s s' : Session} {path : Path} {names : List Component}
      (h : s.opendir path = some (names, s')) : Call s s'
  | remove {s s' : Session} {path : Path} {r : Bool} (h : s.remove path = (r, s')) : Call s s'
  | report (s : Session) (line : List Char) : Call s (s.report line)

/-- The process has emptied what it has removed, and has changed nothing else. -/
structure Worked (fs : FileSystem) (s : Session) : Prop where
  lacks : s.fs = fs.without s.removed
  emptied : fs.Emptied s.removed

variable {fs : FileSystem} {s s' : Session} {path : Path}

theorem worked_init (fs : FileSystem) : Worked fs (init fs) where
  lacks := (FileSystem.without_nil fs).symm
  emptied := by simp [FileSystem.Emptied, init]

theorem remove_eq_true (h : s.remove path = (true, s')) : ∃ x, s.fs.remove path = some x ∧
    s'.fs = s.fs.without [x] ∧ s'.removed = s.removed ++ [x] := by
  rw [Session.remove] at h
  split at h
  · rename_i x hx
    obtain ⟨-, rfl⟩ := Prod.mk.inj h
    exact ⟨x, hx, rfl, rfl⟩
  · cases (Prod.mk.inj h).1

/-- Each call keeps it so: what a removed entry named has no entry left. -/
theorem Worked.call (hs : Worked fs s) (h : Call s s') : Worked fs s' := by
  rcases h with h | h | _
  · obtain ⟨listing, -, h⟩ := Option.map_eq_some_iff.1 h
    obtain ⟨-, rfl⟩ := Prod.mk.inj h
    exact ⟨hs.lacks, hs.emptied⟩
  · rename_i path r
    rcases r with _ | _
    · rw [Session.remove] at h
      split at h
      · cases (Prod.mk.inj h).1
      · obtain ⟨-, rfl⟩ := Prod.mk.inj h
        exact hs
    · obtain ⟨⟨d, n⟩, hx, hfs, hremoved⟩ := remove_eq_true h
      refine ⟨by rw [hfs, hs.lacks, hremoved, FileSystem.without_append], ?_⟩
      rw [hs.lacks] at hx
      obtain ⟨i, hstep, hempty⟩ := FileSystem.entries_of_remove hx
      rw [hremoved]
      intro y hy j hj z hz
      refine List.mem_append_left _ ?_
      rcases List.mem_append.1 hy with hy | hy
      · exact hs.emptied y hy j hj z hz
      · obtain rfl := List.mem_singleton.1 hy
        obtain rfl : i = j := Option.some.inj ((FileSystem.step_of_without hstep).symm.trans hj)
        by_contra hkept
        have hmem := FileSystem.mem_entries_without.2 ⟨hz, hkept⟩
        rw [hempty] at hmem
        cases hmem
  · exact ⟨hs.lacks, hs.emptied⟩

/-- So does **a whole run**. -/
theorem Worked.calls (hs : Worked fs s) (h : Relation.ReflTransGen Call s s') : Worked fs s' := by
  induction h with
  | refl => exact hs
  | tail _ hcall ih => exact ih.call hcall

end Session

end Posix

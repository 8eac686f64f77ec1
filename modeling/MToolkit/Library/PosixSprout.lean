import MToolkit.Library.PosixMkdir

/-!
# Directories made below one entry

When all the directories that are made lie below one new entry, taking that entry and everything
below it away again gives back the file system there was.

* Below the entry is a directory tree of which nothing was there before, and nothing else has been
  touched (`Posix.FileSystem.Sprout`). A directory that is made in the tree keeps it so
  (`Posix.FileSystem.Sprout.insert`).
* The serial numbers that were taken are not given back, so what comes after is the same up to
  files that nothing refers to (`Posix.FileSystem.Agrees`). No path name tells it from what there
  was (`Posix.FileSystem.Agrees.resolve`).
-/

namespace Posix

namespace FileSystem

variable {fs fs' : FileSystem} {supply : Supply} {d e i j : Ino} {dir : Directory} {m n : Name}
  {c : Component} {cs ys : List Component} {path q : Path} {budget : ℕ} {es : List (Ino × Name)}
  {p : Name → Prop}

/-! ### The same up to what nothing refers to -/

/-- The file is there, or something refers to it. -/
def Known (fs : FileSystem) (i : Ino) : Prop := fs.Mentions i ∨ fs.node i ≠ none

/-- The second file system **agrees** with the first on every file of it, and has none where the
first refers to none. -/
structure Agrees (fs fs' : FileSystem) : Prop where
  root : fs'.root = fs.root
  cwd : fs'.cwd = fs.cwd
  symloopMax : fs'.symloopMax = fs.symloopMax
  pathMax : fs'.pathMax = fs.pathMax
  node : ∀ i, fs.Known i → fs'.node i = fs.node i

theorem Agrees.step (h : Agrees fs fs') (hd : fs.Mentions d) : fs'.step d c = fs.step d c := by
  rw [FileSystem.step, h.node d (Or.inl hd), FileSystem.step]

theorem Agrees.start (h : Agrees fs fs') (d : Ino) (path : Path) :
    fs'.start d path = fs.start d path := by
  rcases path with _ | ⟨c, path⟩
  · rfl
  · rw [FileSystem.start, FileSystem.start, h.root]

theorem Agrees.walk (h : Agrees fs fs') {expand expand' : Ino → Path → List Component → Option Ino}
    (hexpand : ∀ d target cs, fs.Mentions d → expand' d target cs = expand d target cs)
    (hd : fs.Mentions d) : fs'.walk expand' d cs = fs.walk expand d cs := by
  induction cs generalizing d with
  | nil => rfl
  | cons c cs ih =>
    rw [FileSystem.walk, FileSystem.walk, h.step hd]
    rcases hstep : fs.step d c with _ | i
    · rfl
    · have hi := mentions_step hd hstep
      simp only [h.node i (Or.inl hi)]
      rcases fs.node i with _ | (_ | _ | target)
      · exact ih hi
      · exact ih hi
      · exact ih hi
      · exact hexpand d target cs hd

/-- The resolution never leaves the files that something refers to. -/
theorem Agrees.follow (h : Agrees fs fs') (hd : fs.Mentions d) :
    fs'.follow budget d cs = fs.follow budget d cs := by
  induction budget generalizing d cs with
  | zero => exact h.walk (fun _ _ _ _ => rfl) hd
  | succ budget ih =>
    refine h.walk (fun d target cs hd => ?_) hd
    rw [h.start]
    rcases hstart : fs.start d target with _ | e
    · rfl
    · exact ih (mentions_start hd hstart)

/-- **No path name tells the file systems apart.** -/
theorem Agrees.resolve (h : Agrees fs fs') : fs'.resolve path cs = fs.resolve path cs := by
  rw [FileSystem.resolve, FileSystem.resolve, fits, fits, h.pathMax, h.cwd, h.symloopMax, h.start]
  split_ifs
  · rcases hstart : fs.start fs.cwd path with _ | e
    · rfl
    · exact h.follow (mentions_start (Or.inr (Or.inl rfl)) hstart)
  · rfl

/-! ### One more directory -/

theorem find_eq_none : dir.find n = none ↔ ∀ x ∈ dir.entries, x.1 ≠ n := by
  rw [Directory.find, Option.map_eq_none_iff, List.find?_eq_none]
  simp

/-- A name that was not there is found **behind the others**. -/
theorem step_of_append (hfind : dir.find n = none) (hsearch : dir.searchable)
    (hd : fs.node d = some (.directory { dir with entries := dir.entries ++ [(n, i)] })) :
    fs.step d (.name n) = some i := by
  rw [Directory.find, Option.map_eq_none_iff] at hfind
  simp [step, hd, hsearch, Directory.find, List.find?_append, hfind]

theorem entries_insert : (fs.insert d dir n i).entries j =
    if j = i then [] else if j = d then dir.entries ++ [(n, i)] else fs.entries j := by
  rw [entries, node_insert]
  split_ifs <;> rfl

/-- A tree is still one **with one more directory** in the file system. -/
theorem Tree.insert (h : fs.Tree j) (hd : fs.node d = some (.directory dir))
    (hfind : dir.find n = none) (hi : fs.node i = none) : (fs.insert d dir n i).Tree j := by
  have hne : ∀ {k}, fs.node k ≠ none → k ≠ i := by
    rintro k hk rfl
    exact hk hi
  have hnew : (fs.insert d dir n i).Tree i :=
    .directory (if_pos rfl) List.nodup_nil (by simp)
  induction h with
  | @regular j content h =>
    have hjd : j ≠ d := by
      rintro rfl
      rw [hd] at h
      cases h
    exact .regular (by rw [node_insert, if_neg (hne (by simp [h])), if_neg hjd, h])
  | @directory j dir' h distinct below ih =>
    have hji := hne (k := j) (by simp [h])
    by_cases hjd : j = d
    · subst hjd
      obtain rfl := Node.directory.inj (Option.some.inj (h.symm.trans hd))
      refine .directory (by rw [node_insert, if_neg hji, if_pos rfl]) ?_ fun x hx => ?_
      · rw [List.map_append, List.nodup_append]
        refine ⟨distinct, List.nodup_singleton _, fun a ha b hb => ?_⟩
        obtain ⟨x, hx, rfl⟩ := List.mem_map.1 ha
        rw [List.mem_singleton.1 hb]
        exact find_eq_none.1 hfind x hx
      · rcases List.mem_append.1 hx with hx | hx
        · exact ih x hx
        · rwa [List.mem_singleton.1 hx]
    · exact .directory (by rw [node_insert, if_neg hji, if_neg hjd, h]) distinct ih

/-- What is reached is what was reached, or **the new directory**. -/
theorem reach_insert (hd : fs.node d = some (.directory dir))
    (h : Relation.ReflTransGen (fs.insert d dir n i).Child e j) :
    Relation.ReflTransGen fs.Child e j ∨ j = i := by
  induction h with
  | refl => exact Or.inl .refl
  | @tail a b _ hchild ih =>
    obtain ⟨m, hm⟩ := hchild
    rw [entries_insert] at hm
    split_ifs at hm with hai had
    · cases hm
    · rcases List.mem_append.1 hm with hm | hm
      · refine Or.inl ((ih.resolve_right hai).tail ⟨m, ?_⟩)
        rwa [had, entries, hd]
      · exact Or.inr (Prod.mk.inj (List.mem_singleton.1 hm)).2
    · exact Or.inl ((ih.resolve_right hai).tail ⟨m, hm⟩)

theorem Permissive.insert (hfs : fs.Permissive) (hd : fs.node d = some (.directory dir)) :
    (fs.insert d dir n i).Permissive where
  pathMax := hfs.pathMax
  modes j dir' hj := by
    rw [node_insert] at hj
    split_ifs at hj
    · obtain rfl := Node.directory.inj (Option.some.inj hj)
      exact ⟨rfl, rfl, rfl⟩
    · obtain rfl := Node.directory.inj (Option.some.inj hj)
      exact hfs.modes d dir hd
    · exact hfs.modes j dir' hj

theorem Permissive.mkdir (hfs : fs.Permissive) (h : fs.mkdir supply path = some fs') :
    fs'.Permissive := by
  obtain ⟨d, dir, n, i, -, hd, -, -, -, rfl⟩ := mkdir_eq_some h
  exact hfs.insert hd

/-! ### Below one entry -/

/-- **All that has been made lies below one entry**: a tree of directories that were not there,
whose names have the property. -/
structure Sprout (p : Name → Prop) (fs : FileSystem) (d : Ino) (n : Name) (i : Ino)
    (fs' : FileSystem) : Prop where
  grown : fs.Grown fs'
  others : ∀ j, j ≠ d → fs.Known j → fs'.node j = fs.node j
  entry : ∃ dir, fs.node d = some (.directory dir) ∧ dir.searchable ∧ dir.find n = none ∧
    fs'.node d = some (.directory { dir with entries := dir.entries ++ [(n, i)] })
  tree : fs'.Tree i
  isDirectory : fs'.isDirectory i
  new : ∀ j, Relation.ReflTransGen fs'.Child i j → ¬ fs.Known j
  names : ∀ j, Relation.ReflTransGen fs'.Child i j → ∀ x ∈ fs'.entries j, p x.1

/-- What is known stays known. -/
theorem Grown.known (h : Grown fs fs') (hi : fs.Known i) : fs'.Known i := by
  refine hi.imp h.mentions fun hnode hnone => hnode ?_
  have hgrown := h.node i
  rw [hnone] at hgrown
  generalize fs.node i = node at hgrown
  cases hgrown
  rfl

theorem not_known_of_next (h : supply.next fs = some i) : ¬ fs.Known i := by
  obtain ⟨hnone, hfree⟩ := supply.unused fs i h
  rintro (hi | hi)
  · exact hfree hi
  · exact hi hnone

/-- **The first call** makes an empty directory. -/
theorem sprout_insert (p : Name → Prop) (hd : fs.node d = some (.directory dir))
    (hsearch : dir.searchable) (hfind : dir.find n = none) (hi : ¬ fs.Known i) :
    Sprout p fs d n i (fs.insert d dir n i) := by
  simp only [Known, not_or, not_not] at hi
  obtain ⟨hfree, hnone⟩ := hi
  have hne : d ≠ i := by
    rintro rfl
    rw [hnone] at hd
    cases hd
  have hnode : (fs.insert d dir n i).node i = some (.directory ⟨d, [], true, true, true⟩) :=
    if_pos rfl
  have hempty : (fs.insert d dir n i).entries i = [] := by rw [entries, hnode]
  have hreach : ∀ j, Relation.ReflTransGen (fs.insert d dir n i).Child i j → j = i := by
    intro j hj
    rcases Relation.ReflTransGen.cases_head hj with rfl | ⟨k, ⟨m, hm⟩, -⟩
    · rfl
    · rw [hempty] at hm
      cases hm
  refine ⟨grown_insert hd hnone hfree, fun j hj hknown => ?_, ⟨dir, hd, hsearch, hfind, ?_⟩,
    .directory hnode List.nodup_nil (by simp), isDirectory_eq_true.2 ⟨_, hnode⟩, ?_, ?_⟩
  · have hji : j ≠ i := by
      rintro rfl
      exact hknown.elim hfree (absurd hnone)
    rw [node_insert, if_neg hji, if_neg hj]
  · rw [node_insert, if_neg hne, if_pos rfl]
  · intro j hj hknown
    obtain rfl := hreach j hj
    exact hknown.elim hfree (absurd hnone)
  · intro j hj x hx
    rw [hreach j hj, hempty] at hx
    cases hx

/-- **A call below the entry** makes the tree larger and touches nothing else. -/
theorem Sprout.insert (h : Sprout p fs d n i fs') (he : Relation.ReflTransGen fs'.Child i e)
    (hdir : fs'.node e = some (.directory dir)) (hfind : dir.find m = none) (hm : p m)
    (hj : ¬ fs'.Known j) : Sprout p fs d n i (fs'.insert e dir m j) := by
  have hunknown : ∀ {k}, fs.Known k → k ≠ j ∧ k ≠ e := by
    refine fun {k} hk => ⟨?_, ?_⟩
    · rintro rfl
      exact hj (h.grown.known hk)
    · rintro rfl
      exact h.new _ he hk
  simp only [Known, not_or, not_not] at hj
  obtain ⟨hfree, hnone⟩ := hj
  have hne : e ≠ j := by
    rintro rfl
    rw [hnone] at hdir
    cases hdir
  obtain ⟨dir₀, hd₀, hsearch, hfind₀, hd⟩ := h.entry
  obtain ⟨hdj, hde⟩ := hunknown (k := d) (Or.inr (by simp [hd₀]))
  refine ⟨h.grown.trans (grown_insert hdir hnone hfree), fun k hk hknown => ?_,
    ⟨dir₀, hd₀, hsearch, hfind₀, ?_⟩, h.tree.insert hdir hfind hnone, ?_, ?_, ?_⟩
  · obtain ⟨hkj, hke⟩ := hunknown hknown
    rw [node_insert, if_neg hkj, if_neg hke, h.others k hk hknown]
  · rw [node_insert, if_neg hdj, if_neg hde, hd]
  · exact (grown_insert hdir hnone hfree).isDirectory h.isDirectory
  · intro k hk hknown
    rcases reach_insert hdir hk with hk | rfl
    · exact h.new k hk hknown
    · exact (hunknown hknown).1 rfl
  · intro k hk x hx
    rw [entries_insert] at hx
    split_ifs at hx with hkj hke
    · cases hx
    · rcases List.mem_append.1 hx with hx | hx
      · refine h.names e he x ?_
        rwa [entries, hdir]
      · rwa [List.mem_singleton.1 hx]
    · exact h.names k ((reach_insert hdir hk).resolve_right hkj) x hx

/-- The entry itself is in none of the directories that have been made. -/
theorem Sprout.not_reach (h : Sprout p fs d n i fs') :
    ¬ Relation.ReflTransGen fs'.Child i d := fun hreach => by
  obtain ⟨dir, hd, -⟩ := h.entry
  exact h.new d hreach (Or.inr (by simp [hd]))

/-- **What could be resolved before** can be resolved however much of the tree is gone. -/
theorem Sprout.finds (h : Sprout p fs d n i fs')
    (hes : ∀ x ∈ es, Relation.ReflTransGen fs'.Child i x.1) : Finds fs (fs'.without es) where
  root := h.grown.root
  cwd := h.grown.cwd
  symloopMax := h.grown.symloopMax
  pathMax := h.grown.pathMax
  step a c b hstep := by
    obtain ⟨dir, ha⟩ := isDirectory_eq_true.1 (isDirectory_of_step hstep)
    -- the directory was there, so no entry of it is gone
    have hsame : (fs'.without es).node a = fs'.node a :=
      node_without_of_not_mem fun m hm => h.new a (hes _ hm) (Or.inr (by simp [ha]))
    have hgrown := h.grown.step hstep
    rw [FileSystem.step] at hgrown ⊢
    rwa [hsame]
  link a target := (h.grown.link a target).trans node_without_eq_link.symm

/-- **The path name of the entry** names the tree however much of it is gone. -/
theorem Sprout.steady (h : Sprout p fs d n i fs') (hentry : fs.entryOf path = some (d, n)) :
    fs'.Steady path i := by
  intro es hes
  obtain ⟨dir, -, hsearch, hfind, hd⟩ := h.entry
  have hsame : (fs'.without es).node d = fs'.node d :=
    node_without_of_not_mem fun m hm => h.not_reach (hes _ hm)
  exact ⟨d, n, (h.finds hes).entryOf hentry, step_of_append hfind hsearch (hsame.trans hd)⟩

theorem Sprout.step (h : Sprout p fs d n i fs') : fs'.step d (.name n) = some i := by
  obtain ⟨dir, -, hsearch, hfind, hd⟩ := h.entry
  exact step_of_append hfind hsearch hd

/-- **Without the entry and what is below it** the file system is what it was. -/
theorem Sprout.agrees (h : Sprout p fs d n i fs') (hown : (d, n) ∈ es)
    (hes : ∀ x ∈ es, x = (d, n) ∨ Relation.ReflTransGen fs'.Child i x.1) :
    Agrees fs (fs'.without es) where
  root := h.grown.root
  cwd := h.grown.cwd
  symloopMax := h.grown.symloopMax
  pathMax := h.grown.pathMax
  node j hj := by
    have hmem : ∀ m, (j, m) ∈ es → (j, m) = (d, n) := fun m hm =>
      (hes _ hm).resolve_right fun hreach => h.new j hreach hj
    by_cases hjd : j = d
    · subst hjd
      obtain ⟨dir, hd₀, -, hfind, hd⟩ := h.entry
      have hiff : ∀ m, (j, m) ∈ es ↔ (j, m) ∈ [(j, n)] := fun m => by
        rw [List.mem_singleton]
        exact ⟨hmem m, fun heq => heq ▸ hown⟩
      rw [node_without_congr hiff, hd₀]
      refine node_without_eq_directory.2 ⟨_, hd, ?_⟩
      -- the name was not in the directory, so it goes with this entry alone
      have hkeep : dir.entries.filter (fun x => !decide (x.1 = n)) = dir.entries :=
        List.filter_eq_self.2 fun x hx => by simpa using find_eq_none.1 hfind x hx
      simp [Directory.without, List.filter_append, hkeep]
    · rw [node_without_of_not_mem fun m hm => hjd (Prod.mk.inj (hmem m hm)).1]
      exact h.others j hjd hj

end FileSystem

end Posix

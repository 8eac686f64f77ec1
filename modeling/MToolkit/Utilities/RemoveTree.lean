import MToolkit.Library.PosixTree
import MToolkit.Utilities.Remove

/-!
# Removing a directory tree

`Remove` on a directory tree without links, where no call is refused. The directory itself can be
removed only when it is empty, so `Remove` fails as soon as one name is passed over, at any
depth: a name that begins with a dot.

* A run that returns true has emptied what it has removed
  (`MToolkit.Filesystem.calls_Remove` and `Posix.Session.Worked.calls`), so no name of the tree
  was passed over.
* Where no name is passed over, the loop empties the directory, by induction on the tree. The
  path name has to lead to it all the time (`Posix.FileSystem.Steady`).
-/

namespace MToolkit

open Posix

namespace Filesystem

/-! ### The calls of a run -/

theorem calls_loop {remove : Path → Session → Option (Bool × Session)}
    (hremove : ∀ path s r s', remove path s = some (r, s') →
      Relation.ReflTransGen Session.Call s s')
    {path : Path} {names : List Component} {s s' : Session} {r : Bool}
    (h : Remove.loop remove path names s = some (r, s')) :
    Relation.ReflTransGen Session.Call s s' := by
  induction names generalizing s with
  | nil =>
    obtain ⟨-, rfl⟩ := Prod.mk.inj (Option.some.inj h)
    exact .refl
  | cons c rest ih =>
    rw [Remove.loop] at h
    split_ifs at h
    · split at h
      · cases h
      · rename_i hs₁
        obtain ⟨-, rfl⟩ := Prod.mk.inj (Option.some.inj h)
        exact hremove _ _ _ _ hs₁
      · rename_i hs₁
        exact (hremove _ _ _ _ hs₁).trans (ih h)
    · split at h
      · rename_i hs₁
        obtain ⟨-, rfl⟩ := Prod.mk.inj (Option.some.inj h)
        exact .single (.remove hs₁)
      · rename_i hs₁
        exact (Relation.ReflTransGen.single (.remove hs₁)).trans (ih h)
    · exact ih h

/-- **A run is a run of calls**, and when it returns true, removing the path name is the last. -/
theorem calls_Remove {fuel : ℕ} {path : Path} {s s' : Session} {r : Bool}
    (h : Remove fuel path s = some (r, s')) : Relation.ReflTransGen Session.Call s s' ∧
      (r = true → ∃ s₁, Relation.ReflTransGen Session.Call s s₁ ∧ s₁.remove path = (true, s')) := by
  induction fuel generalizing path s r s' with
  | zero => cases h
  | succ fuel ih =>
    rw [Remove] at h
    split_ifs at h
    · split at h
      · obtain ⟨rfl, rfl⟩ := Prod.mk.inj (Option.some.inj h)
        exact ⟨.single (.report _ _), by simp⟩
      · rename_i names s₀ hopen
        have hrun : ∀ q s₁, Remove.loop (Remove fuel) path names s₀ = some (q, s₁) →
            Relation.ReflTransGen Session.Call s s₁ := fun q s₁ hloop =>
          .head (.opendir hopen) (calls_loop (fun _ _ _ _ hs => (ih hs).1) hloop)
        split at h
        · cases h
        · rename_i hs₁
          obtain ⟨rfl, rfl⟩ := Prod.mk.inj (Option.some.inj h)
          exact ⟨hrun _ _ hs₁, by simp⟩
        · rename_i s₁ hs₁
          have hlast : s₁.remove path = (r, s') := Option.some.inj h
          exact ⟨(hrun _ _ hs₁).tail (.remove hlast), fun hr => ⟨s₁, hrun _ _ hs₁, hr ▸ hlast⟩⟩
    · have hlast : s.remove path = (r, s') := Option.some.inj h
      exact ⟨.single (.remove hlast), fun hr => ⟨s, .refl, hr ▸ hlast⟩⟩

/-- With **more fuel** a run does the same. -/
theorem Remove_le {fuel fuel' : ℕ} {path : Path} {s : Session} {x : Bool × Session}
    (hle : fuel ≤ fuel') (h : Remove fuel path s = some x) : Remove fuel' path s = some x := by
  induction hle with
  | refl => exact h
  | step _ ih => exact Remove_succ ih

/-! ### Names that are passed over -/

/-- **No name is passed over** at or below the directory. -/
def AllVisible (fs : FileSystem) (d : Ino) : Prop :=
  ∀ i, Relation.ReflTransGen fs.Child d i → ∀ e ∈ fs.entries i, visible e.1.chars

/-- **Nothing at or below the path name exists**, and what was in the subtree is empty. -/
def Erased (fs fs' : FileSystem) (path : Path) : Prop :=
  (∀ rest : Path, rest = [] ∨ rest.head? = some '/' → ¬ Exists fs' (path ++ rest)) ∧
    ∀ i, fs.Below path i → fs'.entries i = []

/-- The path name itself is no symbolic link. -/
def NoLink (fs : FileSystem) (path : Path) : Prop :=
  ∀ c n, fs.entryOf path = some (c, n) →
    ∀ i target, fs.step c (.name n) = some i → fs.node i ≠ some (.link target)

section Returned

variable {fs : FileSystem} {path : Path} {d c : Ino} {n : Name} {es : List (Ino × Name)}

/-- What lies behind a path name, or behind a slash behind it, is resolved **through its
components**. -/
theorem exists_parts (path : Path) {rest : Path} (h : rest = [] ∨ rest.head? = some '/') :
    ∃ ys, parts (path ++ rest) = components path ++ ys := by
  rcases rest with _ | ⟨a, rest⟩
  · rw [List.append_nil, parts]
    split_ifs
    · exact ⟨_, rfl⟩
    · exact ⟨[], (List.append_nil _).symm⟩
  · obtain rfl : a = '/' := by simpa using h
    rw [parts, components_append_slash]
    split_ifs
    · exact ⟨_, List.append_assoc _ _ _⟩
    · exact ⟨_, rfl⟩

/-- Where the entry is gone that a path name ends in, **nothing lies behind it**. -/
theorem not_exists_of_without (hentry : fs.entryOf path = some (c, n)) (hmem : (c, n) ∈ es)
    {rest : Path} (hrest : rest = [] ∨ rest.head? = some '/') :
    ¬ Exists (fs.without es) (path ++ rest) := by
  obtain ⟨cs, hcs, hc⟩ := FileSystem.entryOf_eq_some.1 hentry
  intro h
  obtain ⟨i, hi⟩ := Option.isSome_iff_exists.1 h
  obtain ⟨ys, hys⟩ := exists_parts path hrest
  rw [FileSystem.stat, hys, hcs, List.append_assoc] at hi
  have hpath : path ≠ [] := FileSystem.ne_nil_of_resolve hc
  obtain ⟨hfits, e, hstart, h⟩ := FileSystem.resolve_eq_some.1
    (FileSystem.resolve_append hpath hi)
  obtain ⟨c', left, hc', h⟩ := FileSystem.follow_append h
  -- the directory is the same, and the name is not in it any more
  have hsame := FileSystem.resolve_of_without
    (FileSystem.resolve_eq_some.2 ⟨hfits, e, hstart, hc'⟩)
  obtain rfl : c' = c := Option.some.inj (hsame.symm.trans hc)
  obtain ⟨j, hstep, -⟩ := FileSystem.follow_cons.1 h
  exact (FileSystem.mem_entries_without.1 (FileSystem.mem_entries_of_step hstep)).2 hmem

/-- The directory a tree lies in is no part of the tree. -/
theorem not_reach_parent (htree : fs.Tree d) (hstep : fs.step c (.name n) = some d) :
    ¬ Relation.ReflTransGen fs.Child d c := fun hreach =>
  htree.acyclic (Relation.TransGen.tail' hreach ⟨n, FileSystem.mem_entries_of_step hstep⟩)

/-- When the tree can be removed **after all that is in it**, the path name has not run through
the tree. -/
theorem steady_of_remove (htree : fs.Tree d) (hstep : fs.step c (.name n) = some d)
    (hgone : ∀ i, Relation.ReflTransGen fs.Child d i → ∀ y ∈ fs.entries i, (i, y.1) ∈ es)
    (h : (fs.without es).remove path = some (c, n)) : fs.Steady path d := by
  intro es' hes'
  obtain ⟨i, hi, -⟩ := FileSystem.entries_of_remove h
  obtain rfl : i = d := Option.some.inj ((FileSystem.step_of_without hi).symm.trans hstep)
  have hnames : (fs.without es).Names path i := ⟨c, n, (FileSystem.remove_eq_some h).1, hi⟩
  have habsorb : (fs.without es').without es = fs.without es :=
    FileSystem.without_absorb fun y hy z hz hzy => by
      have hmem := hgone y.1 (hes' y hy) z hz
      rwa [hzy] at hmem
  rw [← habsorb] at hnames
  exact FileSystem.names_of_without hnames

/-- Without its own entry and those in it, **nothing is left** of a tree. -/
theorem erased_of_gone (hstat : fs.stat path = some d) (hentry : fs.entryOf path = some (c, n))
    (hown : (c, n) ∈ es)
    (hgone : ∀ i, Relation.ReflTransGen fs.Child d i → ∀ y ∈ fs.entries i, (i, y.1) ∈ es) :
    Erased fs (fs.without es) path := by
  refine ⟨fun rest hrest => not_exists_of_without hentry hown hrest, ?_⟩
  rintro i ⟨r, hr, hreach⟩
  obtain rfl : r = d := Option.some.inj (hr.symm.trans hstat)
  rw [List.eq_nil_iff_forall_not_mem]
  intro y hy
  obtain ⟨hy, hkept⟩ := FileSystem.mem_entries_without.1 hy
  exact hkept (hgone i hreach y hy)

/-- **What a run that returns true has found and done**: no name of the tree was passed over,
the path name did not run through it, and nothing of it is left. -/
theorem of_Remove_true {fuel : ℕ} {s : Session} (hfs : fs.Permissive) (htree : fs.Tree d)
    (hstat : fs.stat path = some d) (hlink : NoLink fs path)
    (h : Remove fuel path (Session.init fs) = some (true, s)) :
    AllVisible fs d ∧ fs.Steady path d ∧ Erased fs s.fs path := by
  obtain ⟨opened, removed, heff, hwork, hdone⟩ := removes_Remove h
  obtain ⟨-, ⟨c, n⟩, hown, hentry⟩ := hdone rfl
  obtain ⟨hcalls, hlast⟩ := calls_Remove h
  have hworked := (Session.worked_init fs).calls hcalls
  have hremoved : s.removed = removed := heff.removed
  rw [← hremoved] at hown hwork
  have hstep := FileSystem.step_of_stat hstat hentry (hlink c n hentry)
  have hout := not_reach_parent htree hstep
  -- the entry of the tree is gone, so the tree is
  have hgone : ∀ i, Relation.ReflTransGen fs.Child d i → ∀ y ∈ fs.entries i,
      (i, y.1) ∈ s.removed := fun i => htree.gone hfs hworked.emptied hown hstep
  refine ⟨fun i hi y hy => ?_, ?_, hworked.lacks ▸ erased_of_gone hstat hentry hown hgone⟩
  · rcases hwork.taken _ (hgone i hi y hy) with hx | hx
    · -- the entry of the tree is in no directory of the tree
      obtain ⟨rfl, -⟩ := Prod.mk.inj (Option.some.inj (hentry.symm.trans hx))
      exact absurd hi hout
    · exact hx.1
  · obtain ⟨s₁, hcalls₁, hs₁⟩ := hlast rfl
    obtain ⟨x, hx, -, hremoved₁⟩ := Session.remove_eq_true hs₁
    rw [((Session.worked_init fs).calls hcalls₁).lacks] at hx
    obtain rfl : (c, n) = x := Option.some.inj (hentry.symm.trans
      (FileSystem.entryOf_of_without (FileSystem.remove_eq_some hx).1))
    -- its own entry is the last that is removed
    refine steady_of_remove htree hstep (fun i hi y hy => ?_) hx
    have hmem := hgone i hi y hy
    rw [hremoved₁, List.mem_append, List.mem_singleton] at hmem
    exact hmem.resolve_right fun heq => hout ((Prod.mk.inj heq).1 ▸ hi)

end Returned

/-! ### The loop over a tree -/

/-- Without links, what visible entries lead to is a child. -/
theorem reach_of_leads {fs : FileSystem} {d i : Ino} (htree : fs.Tree d)
    (h : Relation.ReflTransGen (Leads fs) d i) : Relation.ReflTransGen fs.Child d i := by
  induction h with
  | refl => exact .refl
  | tail _ hleads ih =>
    obtain ⟨n, -, left, hname⟩ := hleads
    obtain ⟨j, hstep, h⟩ := FileSystem.follow_cons.1 hname
    have hchild : fs.Child _ j := ⟨n, FileSystem.mem_entries_of_step hstep⟩
    rcases h with ⟨target, hlink, -⟩ | ⟨-, h⟩
    · exact absurd hlink (((htree.reach ih).child hchild).not_link target)
    · obtain rfl : j = _ := by cases left <;> exact Option.some.inj h
      exact ih.tail hchild

/-- So what is removed are **entries of the tree**, or those of the run itself. -/
theorem Work.reach {fs : FileSystem} {root : Ino → Prop} {own : Ino × Name → Prop} {d : Ino}
    {opened : List (Ino × List Component)} {removed : List (Ino × Name)}
    (h : Work fs root own opened removed) (htree : fs.Tree d) (hroot : ∀ i, root i → i = d) :
    ∀ x ∈ removed, own x ∨ Relation.ReflTransGen fs.Child d x.1 := by
  intro x hx
  refine (h.taken x hx).imp_right ?_
  rintro ⟨-, listing, hmem, -⟩
  obtain ⟨r, hr, hreach⟩ := h.visited _ hmem
  obtain rfl := hroot r hr
  exact reach_of_leads htree hreach

/-- `Remove` takes the tree away whenever **a steady path name** leads to it. -/
def Removable (fs : FileSystem) (i : Ino) : Prop :=
  ∀ s path es, s.fs = fs.without es → s.fs.Steady path i →
    ∃ fuel s', Remove fuel path s = some (true, s')

section Tree

variable {fs : FileSystem} {path : Path} {d i j : Ino} {n : Name} {s s₁ s' : Session} {fuel : ℕ}
  {rest : List Component}

theorem remove_eq_of_isSome (h : (s.fs.remove path).isSome) : ∃ s', s.remove path = (true, s') := by
  obtain ⟨x, hx⟩ := Option.isSome_iff_exists.1 h
  exact ⟨_, by rw [Session.remove, hx]⟩

/-- **An entry that is removed**, a directory or not, is one round of the loop. -/
theorem loop_name (hv : visible n.chars)
    (h : Remove fuel (value path n.chars) s = some (true, s₁)) :
    Remove.loop (Remove fuel) path (.name n :: rest) s =
      Remove.loop (Remove fuel) path rest s₁ := by
  rw [Remove.loop, if_pos (show visible (Component.name n).chars from hv)]
  split_ifs with hdir
  · simp only [Component.chars, h]
  · -- then the recursion would have made the same call
    rcases fuel with _ | fuel
    · cases h
    · rw [Remove, if_neg (show ¬ IsDirectory s.fs (value path n.chars) from hdir)] at h
      simp only [Component.chars, Option.some.inj h]

theorem loop_le {fuel fuel' : ℕ} (hle : fuel ≤ fuel') {names : List Component} {x : Bool × Session}
    (h : Remove.loop (Remove fuel) path names s = some x) :
    Remove.loop (Remove fuel') path names s = some x :=
  loop_mono (fun _ _ _ => Remove_le hle) h

/-- A path name that leads to a directory steadily leads to what is in it steadily. -/
theorem steady_value (hfs : fs.Permissive) (htree : fs.Tree d) (h : fs.Steady path d)
    (hn : (n, j) ∈ fs.entries d) : fs.Steady (value path n.chars) j := by
  intro es hes
  have hchild : fs.Child d j := ⟨n, hn⟩
  have hnames := h es fun x hx => .head hchild (hes x hx)
  have hd := hnames.resolve (htree.without es).not_link
  refine ⟨d, n, FileSystem.entryOf_eq_some.2 ⟨_, components_value path n, ?_⟩, ?_⟩
  · rw [value]
    split_ifs
    · exact (hfs.without es).resolve_append hd _
    · exact (hfs.without es).resolve_append hd _
  · refine (htree.without es).step (hfs.without es) ?_
    refine FileSystem.mem_entries_without.2 ⟨hn, fun hmem => ?_⟩
    -- the directory is not in the subtree of its entry
    exact htree.acyclic (Relation.TransGen.head' hchild (hes _ hmem))

/-- What is in a directory can be removed, when its subdirectories can. -/
theorem exists_remove_value (hfs : fs.Permissive) {es : List (Ino × Name)}
    (hs : s.fs = fs.without es) (htree : s.fs.Tree d) (h : s.fs.Steady path d)
    (hn : (n, j) ∈ s.fs.entries d) (hj : fs.isDirectory j → Removable fs j) :
    ∃ fuel s₁, Remove fuel (value path n.chars) s = some (true, s₁) := by
  have hpermissive : s.fs.Permissive := hs ▸ hfs.without es
  have hsteady := steady_value hpermissive htree h hn
  rcases htree.child ⟨n, hn⟩ with ⟨hnode⟩ | ⟨hnode⟩
  · obtain ⟨s₁, hs₁⟩ := remove_eq_of_isSome
      (hpermissive.remove_regular hsteady.names hnode (by simp))
    refine ⟨1, s₁, ?_⟩
    have hfile : ¬ IsDirectory s.fs (value path n.chars) := by
      intro hdir
      obtain ⟨i, hi, hdir⟩ := isDirectory_iff.1 hdir
      have hstat := hsteady.names.resolve (htree.child ⟨n, hn⟩).not_link
      obtain rfl := Option.some.inj (hstat.symm.trans (FileSystem.resolve_of_stat hi))
      simp [FileSystem.isDirectory, hnode] at hdir
    rw [Remove, if_neg hfile, hs₁]
  · refine hj ?_ s _ es hs hsteady
    rw [← FileSystem.isDirectory_without, ← hs]
    exact FileSystem.isDirectory_eq_true.2 ⟨_, hnode⟩

/-- **What one round takes away** is the entry and what lies below it. -/
theorem taken_of_value (hfs : s.fs.Permissive) (htree : s.fs.Tree d) (hsteady : s.fs.Steady path d)
    (hn : (n, j) ∈ s.fs.entries d) (h : Remove fuel (value path n.chars) s = some (true, s₁)) :
    ∃ removed, s₁.fs = s.fs.without removed ∧
      ∀ x ∈ removed, x = (d, n) ∨ Relation.ReflTransGen s.fs.Child j x.1 := by
  obtain ⟨opened, removed, heff, hwork, -⟩ := removes_Remove h
  have hj := htree.child ⟨n, hn⟩
  have hvalue := (steady_value hfs htree hsteady hn).names.resolve hj.not_link
  have hpath := hsteady.names.resolve htree.not_link
  refine ⟨removed, heff.fs, fun x hx => ?_⟩
  have hroot : ∀ i, s.fs.stat (value path n.chars) = some i → i = j := fun i hi =>
    Option.some.inj ((FileSystem.resolve_of_stat hi).symm.trans hvalue)
  refine (hwork.reach hj hroot x hx).imp_left fun hx => ?_
  obtain ⟨hm, hx⟩ := entryOf_value (FileSystem.ne_nil_of_resolve hpath) hx
  exact Prod.ext (Option.some.inj (hx.symm.trans hpath)) hm

/-- **The loop gets to the end**, when every entry can be removed: what one round removes lies
below its entry, so the other entries are still there and the path name leads to them. -/
theorem exists_loop (hfs : fs.Permissive) {names : List (Name × Ino)}
    (hsub : ∀ e ∈ names, fs.isDirectory e.2 → Removable fs e.2) {es : List (Ino × Name)}
    (hs : s.fs = fs.without es) (htree : s.fs.Tree d) (hsteady : s.fs.Steady path d)
    (hnames : ∀ e ∈ names, e ∈ s.fs.entries d) (hdistinct : (names.map (·.1)).Nodup)
    (hv : ∀ e ∈ names, visible e.1.chars) :
    ∃ fuel s', Remove.loop (Remove fuel) path (names.map fun e => .name e.1) s =
      some (true, s') := by
  induction names generalizing s es with
  | nil => exact ⟨0, s, rfl⟩
  | cons e names ih =>
    obtain ⟨n, j⟩ := e
    have hn : (n, j) ∈ s.fs.entries d := hnames _ List.mem_cons_self
    have hchild : s.fs.Child d j := ⟨n, hn⟩
    rw [List.map_cons, List.nodup_cons] at hdistinct
    obtain ⟨fuel, s₁, hs₁⟩ :=
      exists_remove_value hfs hs htree hsteady hn (hsub _ List.mem_cons_self)
    obtain ⟨removed, hlacks, htaken⟩ := taken_of_value (hs ▸ hfs.without es) htree hsteady hn hs₁
    have hbelow : ∀ x ∈ removed, Relation.ReflTransGen s.fs.Child d x.1 := by
      intro x hx
      rcases htaken x hx with rfl | hx
      · exact .refl
      · exact .head hchild hx
    -- the rest of the loop finds the file system without what this round has removed
    have hs' : s₁.fs = fs.without (es ++ removed) := by
      rw [hlacks, hs, FileSystem.without_append]
    have hleft : ∀ e ∈ names, e ∈ s₁.fs.entries d := by
      intro e he
      rw [hlacks]
      refine FileSystem.mem_entries_without.2 ⟨hnames e (List.mem_cons_of_mem _ he), fun hx => ?_⟩
      rcases htaken _ hx with heq | hreach
      · exact hdistinct.1 (List.mem_map.2 ⟨e, he, (Prod.mk.inj heq).2⟩)
      · exact htree.acyclic (.head' hchild hreach)
    obtain ⟨fuel', s', hrest⟩ := ih (fun e he => hsub e (List.mem_cons_of_mem _ he)) hs'
      (hlacks ▸ htree.without removed) (hlacks ▸ hsteady.without hbelow) hleft hdistinct.2
      fun e he => hv e (List.mem_cons_of_mem _ he)
    refine ⟨max fuel fuel', s', ?_⟩
    rw [List.map_cons, loop_name (hv _ List.mem_cons_self) (Remove_le (Nat.le_max_left _ _) hs₁)]
    exact loop_le (Nat.le_max_right _ _) hrest

/-- The loop over all entries of a directory, when each is visible, **leaves it empty** and takes
nothing from elsewhere. -/
theorem Sweeps.empties {names : List (Name × Ino)} (htree : s.fs.Tree d)
    (hnames : s.fs.entries d = names) (hv : ∀ e ∈ names, visible e.1.chars)
    (h : Sweeps d (names.map fun e => .name e.1) s true s') : ∃ removed,
      s'.fs = s.fs.without removed ∧ (s.fs.without removed).entries d = [] ∧
        ∀ x ∈ removed, Relation.ReflTransGen s.fs.Child d x.1 := by
  obtain ⟨opened, removed, heff, hwork, hdone⟩ := h
  refine ⟨removed, heff.fs, ?_, fun x hx => ?_⟩
  · rw [List.eq_nil_iff_forall_not_mem]
    intro e he
    obtain ⟨he, hleft⟩ := FileSystem.mem_entries_without.1 he
    rw [hnames] at he
    have hlisted : Listed [(d, names.map fun e => .name e.1)] (d, e.1) :=
      ⟨hv e he, _, List.mem_singleton_self _, List.mem_map.2 ⟨e, he, rfl⟩⟩
    exact hleft (hdone rfl _ (listed_append.2 (Or.inl hlisted)))
  · rcases hwork.reach htree (fun _ h => h) x hx with ⟨-, listing, hmem, -⟩ | hreach
    · rw [(Prod.mk.inj (List.mem_singleton.1 hmem)).1]
    · exact hreach

/-- A directory of a tree is listed whole, without a name that comes twice. -/
theorem opendir_tree (hfs : s.fs.Permissive) (htree : s.fs.Tree d) (hd : s.fs.isDirectory d)
    (hstat : s.fs.stat path = some d) : ∃ (names : List (Name × Ino)) (s₀ : Session),
      s.opendir path = some (.dot :: .dotDot :: names.map fun e => .name e.1, s₀) ∧
        s₀.fs = s.fs ∧ s.fs.entries d = names ∧ (names.map (·.1)).Nodup := by
  rcases htree with hnode | ⟨hnode, distinct, -⟩
  · simp [FileSystem.isDirectory, hnode] at hd
  · rename_i dir
    let listing : List Component := .dot :: .dotDot :: dir.entries.map fun e => .name e.1
    have hopen : s.opendir path =
        some (listing, { s with opened := s.opened ++ [(d, listing)] }) := by
      simp [Session.opendir, FileSystem.opendir, hstat, hnode, (hfs.modes d dir hnode).1, listing]
    exact ⟨dir.entries, _, hopen, rfl, by rw [FileSystem.entries, hnode], distinct⟩

/-- **A directory is emptied and removed**, when the directories in it are. -/
theorem Removable.directory (hfs : fs.Permissive) (htree : fs.Tree d) (hd : fs.isDirectory d)
    (hv : ∀ e ∈ fs.entries d, visible e.1.chars)
    (hsub : ∀ e ∈ fs.entries d, fs.isDirectory e.2 → Removable fs e.2) : Removable fs d := by
  intro s path es hs hsteady
  have hfs' : s.fs.Permissive := hs ▸ hfs.without es
  have htree' : s.fs.Tree d := hs ▸ htree.without es
  have hd' : s.fs.isDirectory d := by rwa [hs, FileSystem.isDirectory_without]
  have hresolve := hsteady.names.resolve htree'.not_link
  have hstat := hfs'.stat_of_resolve hd' hresolve
  obtain ⟨names, s₀, hopen, hs₀, hnames, hdistinct⟩ := opendir_tree hfs' htree' hd' hstat
  have hkept : ∀ e ∈ names, e ∈ fs.entries d := by
    rw [← hnames, hs]
    exact fun e he => (FileSystem.mem_entries_without.1 he).1
  rw [← hs₀] at hs htree' hsteady hresolve hnames
  obtain ⟨fuel, s₁, hloop⟩ := exists_loop hfs (fun e he => hsub e (hkept e he)) hs htree' hsteady
    (fun e he => hnames ▸ he) hdistinct fun e he => hv e (hkept e he)
  -- the loop has removed all that it was given, so the directory is empty
  obtain ⟨removed, hlast, hempty, hreach⟩ := Sweeps.empties htree' hnames
    (fun e he => hv e (hkept e he)) (sweeps_loop (fun _ _ _ _ h => removes_Remove h)
      (FileSystem.ne_nil_of_resolve hresolve)
      (fun i hi => Option.some.inj (hi.symm.trans hresolve)) hloop)
  rw [← hs₀] at hfs' hd'
  have hgo := (hfs'.without removed).remove_directory (hsteady removed hreach)
    (by rwa [FileSystem.isDirectory_without]) hempty
  rw [← hlast] at hgo
  obtain ⟨s', hs'⟩ := remove_eq_of_isSome hgo
  refine ⟨fuel + 1, s', ?_⟩
  have hskip : Remove.loop (Remove fuel) path
      (.dot :: .dotDot :: names.map fun e => .name e.1) s₀ = some (true, s₁) := hloop
  rw [Remove, if_pos (isDirectory_iff.2 ⟨d, hstat, hs₀ ▸ hd'⟩)]
  simp only [hopen, hskip, hs']

/-- **A tree without names that are passed over can be removed**, by induction on the tree. -/
theorem removable_of_allVisible (hfs : fs.Permissive) (htree : fs.Tree d)
    (hv : AllVisible fs d) (hd : fs.isDirectory d) : Removable fs d := by
  induction htree with
  | regular h => simp [FileSystem.isDirectory, h] at hd
  | @directory i dir h distinct below ih =>
    have hentries : fs.entries i = dir.entries := by rw [FileSystem.entries, h]
    refine Removable.directory hfs (.directory h distinct below) hd (hv _ .refl) fun e he hdir => ?_
    refine ih e (by rwa [hentries] at he) (fun i hi => hv i (.head ⟨e.1, he⟩ hi)) hdir

end Tree

/-- **Removing a directory tree succeeds exactly if no name is passed over**: `Remove` returns
true and nothing at or below the path name exists any more, if and only if no name in the tree,
at any depth, begins with a dot, and the path name is one that names the directory however much
of the tree is gone. -/
theorem Remove_tree_iff {fs : FileSystem} {path : Path} {d : Ino} (hfs : fs.Permissive)
    (htree : fs.Tree d) (hd : fs.isDirectory d) (hstat : fs.stat path = some d)
    (hlink : NoLink fs path) :
    (∃ fuel s, Remove fuel path (Session.init fs) = some (true, s) ∧ Erased fs s.fs path) ↔
      AllVisible fs d ∧ fs.Steady path d := by
  constructor
  · rintro ⟨fuel, s, hs, -⟩
    obtain ⟨hv, hsteady, -⟩ := of_Remove_true hfs htree hstat hlink hs
    exact ⟨hv, hsteady⟩
  · rintro ⟨hv, hsteady⟩
    obtain ⟨fuel, s, hs⟩ := removable_of_allVisible hfs htree hv hd (Session.init fs) path []
      (FileSystem.without_nil fs).symm hsteady
    exact ⟨fuel, s, hs, (of_Remove_true hfs htree hstat hlink hs).2.2⟩

/-! ### A directory with one file -/

/-- The directory `d` with one file in it. -/
def oneFile (n : Name) : FileSystem where
  node
    | 0 => some (.directory ⟨0, [(.letter 'd' (by decide), 1)], true, true, true⟩)
    | 1 => some (.directory ⟨0, [(n, 2)], true, true, true⟩)
    | 2 => some (.regular [])
    | _ => none
  root := 0
  cwd := 0
  symloopMax := 40
  pathMax := none

section OneFile

variable (n : Name)

theorem oneFile_permissive : (oneFile n).Permissive where
  pathMax := rfl
  modes
    | 0, dir, h => by cases h; exact ⟨rfl, rfl, rfl⟩
    | 1, dir, h => by cases h; exact ⟨rfl, rfl, rfl⟩
    | 2, dir, h => by cases h
    | _ + 3, dir, h => by cases h

theorem oneFile_tree : (oneFile n).Tree 1 := by
  refine .directory rfl (List.nodup_singleton _) fun e he => ?_
  obtain rfl := List.mem_singleton.1 he
  exact .regular rfl

theorem oneFile_root : (oneFile n).Tree 0 := by
  refine .directory rfl (List.nodup_singleton _) fun e he => ?_
  obtain rfl := List.mem_singleton.1 he
  exact oneFile_tree n

theorem oneFile_steady : (oneFile n).Steady ['/', 'd'] 1 := by
  intro es hes
  refine ⟨0, .letter 'd' (by decide), FileSystem.entryOf_eq_some.2 ⟨[], by decide, rfl⟩, ?_⟩
  refine ((oneFile_root n).without es).step ((oneFile_permissive n).without es) ?_
  refine FileSystem.mem_entries_without.2 ⟨List.mem_cons_self, fun hmem => ?_⟩
  -- the root is not in the directory
  exact (oneFile_root n).acyclic
    (.head' ⟨.letter 'd' (by decide), List.mem_cons_self⟩ (hes _ hmem))

theorem oneFile_noLink : NoLink (oneFile n) ['/', 'd'] := by
  intro c m hentry i target hstep
  obtain ⟨c', m', hentry', hstep'⟩ := (oneFile_steady n).names
  obtain ⟨rfl, rfl⟩ := Prod.mk.inj (Option.some.inj (hentry'.symm.trans hentry))
  obtain rfl := Option.some.inj (hstep'.symm.trans hstep)
  exact (oneFile_tree n).not_link target

theorem oneFile_allVisible (hn : visible n.chars) : AllVisible (oneFile n) 1 := by
  intro i hi
  have hsub : i = 1 ∨ i = 2 := by
    induction hi with
    | refl => exact Or.inl rfl
    | tail _ hchild ih =>
      obtain ⟨m, hm⟩ := hchild
      rcases ih with rfl | rfl
      · exact Or.inr (Prod.mk.inj (List.mem_singleton.1 hm)).2
      · cases hm
  rcases hsub with rfl | rfl
  · intro e he
    obtain rfl := List.mem_singleton.1 he
    exact hn
  · intro e he
    cases he

end OneFile

/-- A directory with the file `f` is removed, and nothing of it is left. -/
theorem Remove_tree_file : ∃ fuel s,
    Remove fuel ['/', 'd'] (Session.init (oneFile (.letter 'f' (by decide)))) = some (true, s) ∧
      Erased (oneFile (.letter 'f' (by decide))) s.fs ['/', 'd'] :=
  (Remove_tree_iff (oneFile_permissive _) (oneFile_tree _) (by decide) (by decide)
    (oneFile_noLink _)).2 ⟨oneFile_allVisible _ (by decide), oneFile_steady _⟩

/-- The name `.h` -/
def dotH : Name := ⟨['.', 'h'], by decide, by decide, by decide, by decide⟩

/-- **A hidden file is passed over**, and then the directory is not empty: `Remove` returns false
and the file is still there. -/
theorem Remove_hiddenFile : (oneFile dotH).Permissive ∧ (oneFile dotH).Tree 1 ∧
    (oneFile dotH).stat ['/', 'd'] = some 1 ∧ NoLink (oneFile dotH) ['/', 'd'] ∧
    (∃ s, Remove 2 ['/', 'd'] (Session.init (oneFile dotH)) = some (false, s) ∧
      Exists s.fs ['/', 'd', '/', '.', 'h']) ∧
    ¬ ∃ fuel s, Remove fuel ['/', 'd'] (Session.init (oneFile dotH)) = some (true, s) ∧
      Erased (oneFile dotH) s.fs ['/', 'd'] := by
  have hrun : (Remove 2 ['/', 'd'] (Session.init (oneFile dotH))).map
      (fun x => (x.1, Exists x.2.fs ['/', 'd', '/', '.', 'h'])) = some (false, true) := by
    decide +kernel
  obtain ⟨⟨r, s⟩, hs, h⟩ := Option.map_eq_some_iff.1 hrun
  obtain ⟨rfl, hleft⟩ := Prod.mk.inj h
  refine ⟨oneFile_permissive _, oneFile_tree _, by decide, oneFile_noLink _, ⟨s, hs, hleft⟩, ?_⟩
  rintro ⟨fuel, s', hs', -⟩
  -- with any fuel the run is the same
  have hmax := Remove_le (Nat.le_max_left 2 fuel) hs
  rw [Remove_le (Nat.le_max_right 2 fuel) hs'] at hmax
  cases hmax

end Filesystem

end MToolkit

import MToolkit.Utilities.Filesystem

/-!
# What removing a directory changes

`Remove` takes entries away and does nothing else, so it is described by the directories it
opens and the entries it removes (`MToolkit.Filesystem.Effect`).

* An entry it removes is the one its path name ends in, or a visible name in the listing of a
  directory it has opened (`MToolkit.Filesystem.Work`).
* When it returns true, every such name has been removed (`MToolkit.Filesystem.Complete`).

Both are kept by the loop over one listing and by the recursion, although what a path name
leads to changes on the way: taking entries away only makes path names lead nowhere.

A directory is opened by its path name, links followed. So the files outside the subtree are
left alone as long as no directory outside it is opened that has a visible name
(`MToolkit.Filesystem.Calm`); and when `Remove` returns true, only then.
-/

namespace MToolkit

open Posix

namespace Filesystem

/-! ### Opened directories and removed entries -/

/-- What a part of a run has opened and removed, in this order. -/
structure Effect (s s' : Session) (opened : List (Ino × List Component))
    (removed : List (Ino × Name)) : Prop where
  fs : s'.fs = s.fs.without removed
  opened : s'.opened = s.opened ++ opened
  removed : s'.removed = s.removed ++ removed

theorem Effect.refl (s : Session) : Effect s s [] [] :=
  ⟨by simp, by simp, by simp⟩

theorem Effect.trans {s s' s'' : Session} {o o' : List (Ino × List Component)}
    {e e' : List (Ino × Name)} (h : Effect s s' o e) (h' : Effect s' s'' o' e') :
    Effect s s'' (o ++ o') (e ++ e') where
  fs := by rw [h'.fs, h.fs, FileSystem.without_append]
  opened := by rw [h'.opened, h.opened, List.append_assoc]
  removed := by rw [h'.removed, h.removed, List.append_assoc]

/-- The entry has a visible name in a listing. -/
def Listed (opened : List (Ino × List Component)) (e : Ino × Name) : Prop :=
  visible e.2.chars ∧ ∃ listing, (e.1, listing) ∈ opened ∧ .name e.2 ∈ listing

theorem not_listed_nil (e : Ino × Name) : ¬ Listed [] e := by
  rintro ⟨-, listing, hmem, -⟩
  cases hmem

theorem listed_append {o o' : List (Ino × List Component)} {e : Ino × Name} :
    Listed (o ++ o') e ↔ Listed o e ∨ Listed o' e := by
  simp only [Listed, List.mem_append]
  constructor
  · rintro ⟨hv, listing, hmem | hmem, hn⟩
    · exact Or.inl ⟨hv, listing, hmem, hn⟩
    · exact Or.inr ⟨hv, listing, hmem, hn⟩
  · rintro (⟨hv, listing, hmem, hn⟩ | ⟨hv, listing, hmem, hn⟩)
    · exact ⟨hv, listing, Or.inl hmem, hn⟩
    · exact ⟨hv, listing, Or.inr hmem, hn⟩

/-- Listing one name more. -/
theorem listed_cons {d : Ino} {c : Component} {rest : List Component} {e : Ino × Name} :
    Listed [(d, c :: rest)] e ↔
      (visible c.chars ∧ e.1 = d ∧ c = .name e.2) ∨ Listed [(d, rest)] e := by
  rcases e with ⟨d', n⟩
  simp only [Listed, List.mem_singleton, Prod.mk.injEq]
  constructor
  · rintro ⟨hv, listing, ⟨rfl, rfl⟩, hn⟩
    rcases List.mem_cons.1 hn with rfl | hn
    · exact Or.inl ⟨hv, rfl, rfl⟩
    · exact Or.inr ⟨hv, rest, ⟨rfl, rfl⟩, hn⟩
  · rintro (⟨hv, rfl, rfl⟩ | ⟨hv, listing, ⟨rfl, rfl⟩, hn⟩)
    · exact ⟨hv, _, ⟨rfl, rfl⟩, List.mem_cons_self⟩
    · exact ⟨hv, _, ⟨rfl, rfl⟩, List.mem_cons_of_mem _ hn⟩

/-- A visible entry of the first directory leads to the second file, links followed. -/
def Leads (fs : FileSystem) (d i : Ino) : Prop :=
  ∃ n : Name, visible n.chars ∧ ∃ left, fs.follow left d [.name n] = some i

theorem leads_of_without {fs : FileSystem} {es : List (Ino × Name)} {d i : Ino}
    (h : Leads (fs.without es) d i) : Leads fs d i := by
  obtain ⟨n, hv, left, h⟩ := h
  exact ⟨n, hv, left, FileSystem.follow_of_without h⟩

/-- **What is opened and removed** below some roots: a directory that visible entries lead to
from a root, an entry that is visible in such a directory, or one that is the run's own. -/
structure Work (fs : FileSystem) (root : Ino → Prop) (own : Ino × Name → Prop)
    (opened : List (Ino × List Component)) (removed : List (Ino × Name)) : Prop where
  visited : ∀ o ∈ opened, ∃ r, root r ∧ Relation.ReflTransGen (Leads fs) r o.1
  listed : ∀ o ∈ opened, ∀ n, .name n ∈ o.2 → ∃ i, (n, i) ∈ fs.entries o.1
  present : ∀ e ∈ removed, ∃ i, (e.2, i) ∈ fs.entries e.1
  taken : ∀ e ∈ removed, own e ∨ Listed opened e

/-- All that is visible in the listings is removed. -/
def Complete (opened : List (Ino × List Component)) (removed : List (Ino × Name)) : Prop :=
  ∀ e, Listed opened e → e ∈ removed

section Work

variable {fs : FileSystem} {root root' : Ino → Prop} {own own' : Ino × Name → Prop}
  {o o' : List (Ino × List Component)} {e e' : List (Ino × Name)}

theorem Work.nil : Work fs root own [] [] where
  visited := by simp
  listed := by simp
  present := by simp
  taken := by simp

theorem Work.append (h : Work fs root own o e) (h' : Work fs root own o' e') :
    Work fs root own (o ++ o') (e ++ e') where
  visited x hx := (List.mem_append.1 hx).elim (h.visited x) (h'.visited x)
  listed x hx := (List.mem_append.1 hx).elim (h.listed x) (h'.listed x)
  present x hx := (List.mem_append.1 hx).elim (h.present x) (h'.present x)
  taken x hx := by
    rcases List.mem_append.1 hx with hx | hx
    · exact (h.taken x hx).imp_right fun hl => listed_append.2 (Or.inl hl)
    · exact (h'.taken x hx).imp_right fun hl => listed_append.2 (Or.inr hl)

theorem Work.mono (h : Work fs root own o e)
    (hroot : ∀ i, root i → ∃ r, root' r ∧ Relation.ReflTransGen (Leads fs) r i)
    (hown : ∀ x, own x → own' x) : Work fs root' own' o e where
  visited x hx := by
    obtain ⟨i, hi, hreach⟩ := h.visited x hx
    obtain ⟨r, hr, hroot⟩ := hroot i hi
    exact ⟨r, hr, hroot.trans hreach⟩
  listed := h.listed
  present := h.present
  taken x hx := (h.taken x hx).imp_left (hown x)

theorem exists_entry_of_without {es : List (Ino × Name)} {d : Ino} {n : Name}
    (h : ∃ i, (n, i) ∈ (fs.without es).entries d) : ∃ i, (n, i) ∈ fs.entries d := by
  obtain ⟨i, hi⟩ := h
  rw [FileSystem.entries_without] at hi
  exact ⟨i, (List.mem_filter.1 hi).1⟩

/-- What is done without some entries could be done with them. -/
theorem Work.of_without {es : List (Ino × Name)} (h : Work (fs.without es) root own o e) :
    Work fs root own o e where
  visited x hx := by
    obtain ⟨r, hr, hreach⟩ := h.visited x hx
    exact ⟨r, hr, Relation.ReflTransGen.mono (fun _ _ => leads_of_without) _ _ hreach⟩
  listed x hx n hn := exists_entry_of_without (h.listed x hx n hn)
  present x hx := exists_entry_of_without (h.present x hx)
  taken := h.taken

theorem Complete.nil : Complete [] e := fun x hx => absurd hx (not_listed_nil x)

theorem Complete.append (h : Complete o e) (h' : Complete o' e') :
    Complete (o ++ o') (e ++ e') := by
  intro x hx
  rcases listed_append.1 hx with hx | hx
  · exact List.mem_append_left _ (h x hx)
  · exact List.mem_append_right _ (h' x hx)

end Work

/-! ### One entry, the loop, the recursion -/

/-- **What removing a path name does**, as a whole or with what is below it. -/
def Removes (path : Path) (s : Session) (r : Bool) (s' : Session) : Prop :=
  ∃ opened removed, Effect s s' opened removed ∧
    Work s.fs (s.fs.stat path = some ·) (s.fs.entryOf path = some ·) opened removed ∧
    (r = true → Complete opened removed ∧ ∃ e ∈ removed, s.fs.entryOf path = some e)

/-- **What the loop does** with the names that are left of the listing of a directory. -/
def Sweeps (d : Ino) (names : List Component) (s : Session) (r : Bool) (s' : Session) : Prop :=
  ∃ opened removed, Effect s s' opened removed ∧
    Work s.fs (· = d) (Listed [(d, names)]) opened removed ∧
    (r = true → Complete ([(d, names)] ++ opened) removed)

/-- A call of `remove` takes away the entry that the path name ends in, or nothing. -/
theorem removes_remove {path : Path} {s s' : Session} {r : Bool} (h : s.remove path = (r, s')) :
    Removes path s r s' := by
  rw [Session.remove] at h
  split at h
  · rename_i e he
    obtain ⟨rfl, rfl⟩ := Prod.mk.inj h
    obtain ⟨hentry, hpresent⟩ := FileSystem.remove_eq_some he
    refine ⟨[], [e], ⟨rfl, by simp, rfl⟩, ⟨by simp, by simp, ?_, ?_⟩,
      fun _ => ⟨Complete.nil, e, ?_⟩⟩
    · rintro x hx
      obtain rfl := List.mem_singleton.1 hx
      exact hpresent
    · rintro x hx
      obtain rfl := List.mem_singleton.1 hx
      exact Or.inl hentry
    · exact ⟨List.mem_singleton_self e, hentry⟩
  · obtain ⟨rfl, rfl⟩ := Prod.mk.inj h
    exact ⟨[], [], Effect.refl s, Work.nil, by simp⟩

/-- A name that is passed over needs no removal. -/
theorem Sweeps.skip {d : Ino} {c : Component} {rest : List Component} {s s' : Session} {r : Bool}
    (hc : ¬ visible c.chars) (h : Sweeps d rest s r s') : Sweeps d (c :: rest) s r s' := by
  have hiff : ∀ e, Listed [(d, c :: rest)] e ↔ Listed [(d, rest)] e := fun e => by
    simp [listed_cons, hc]
  obtain ⟨o, e, heff, hwork, hdone⟩ := h
  refine ⟨o, e, heff, hwork.mono (fun i hi => ⟨i, hi, .refl⟩) fun x => (hiff x).2, ?_⟩
  intro hr x hx
  refine hdone hr x ?_
  rw [listed_append] at hx ⊢
  exact hx.imp_left (hiff x).1

section Entry

variable {path : Path} {d : Ino} {n : Name} {rest : List Component} {s s₁ s' : Session} {r : Bool}
  {o : List (Ino × List Component)} {e : List (Ino × Name)}

/-- Removing an entry of a directory by its path name is work of the loop over its listing. -/
theorem Work.of_entry (hpath : path ≠ []) (hv : visible n.chars)
    (hd : ∀ i, s.fs.resolve path (components path) = some i → i = d)
    (h : Work s.fs (s.fs.stat (value path n.chars) = some ·)
      (s.fs.entryOf (value path n.chars) = some ·) o e) :
    Work s.fs (· = d) (Listed [(d, .name n :: rest)]) o e := by
  refine h.mono (fun i hi => ?_) ?_
  · obtain ⟨d', hd', left, hleft⟩ := stat_value hpath hi
    obtain rfl := hd d' hd'
    exact ⟨d', rfl, Relation.ReflTransGen.single ⟨n, hv, left, hleft⟩⟩
  · rintro ⟨d', m⟩ hm
    obtain ⟨rfl, hd'⟩ := entryOf_value hpath hm
    exact listed_cons.2 (Or.inl ⟨hv, hd d' hd', rfl⟩)

/-- The loop ends with an entry that is not removed. -/
theorem Sweeps.stop (hpath : path ≠ []) (hv : visible n.chars)
    (hd : ∀ i, s.fs.resolve path (components path) = some i → i = d)
    (h : Removes (value path n.chars) s false s') : Sweeps d (.name n :: rest) s false s' := by
  obtain ⟨o, e, heff, hwork, -⟩ := h
  exact ⟨o, e, heff, hwork.of_entry hpath hv hd, by simp⟩

/-- **The loop goes on** behind an entry that is removed. -/
theorem Sweeps.next (hpath : path ≠ []) (hv : visible n.chars)
    (hd : ∀ i, s.fs.resolve path (components path) = some i → i = d)
    (h : Removes (value path n.chars) s true s₁) (h' : Sweeps d rest s₁ r s') :
    Sweeps d (.name n :: rest) s r s' := by
  obtain ⟨o, e, heff, hwork, hdone⟩ := h
  obtain ⟨o', e', heff', hwork', hdone'⟩ := h'
  obtain ⟨hcomplete, ⟨d', m⟩, hmem, hentry⟩ := hdone rfl
  obtain ⟨rfl, hd'⟩ := entryOf_value hpath hentry
  obtain rfl := hd d' hd'
  -- the rest of the loop runs without the entries that have been removed by now
  rw [heff.fs] at hwork'
  refine ⟨o ++ o', e ++ e', heff.trans heff', (hwork.of_entry hpath hv hd).append ?_, fun hr => ?_⟩
  · exact hwork'.of_without.mono (fun i hi => ⟨i, hi, .refl⟩)
      fun x hx => listed_cons.2 (Or.inr hx)
  · intro x hx
    rw [listed_append, listed_cons, listed_append] at hx
    rcases hx with (⟨-, hx, hm⟩ | hx) | hx | hx
    · obtain rfl : x = (d', m) := Prod.ext hx (Component.name.inj hm).symm
      exact List.mem_append_left _ hmem
    · exact List.mem_append_right _ (hdone' hr x (listed_append.2 (Or.inl hx)))
    · exact List.mem_append_left _ (hcomplete x hx)
    · exact List.mem_append_right _ (hdone' hr x (listed_append.2 (Or.inr hx)))

end Entry

/-- What a path name leads to is found no more when entries have been removed, or is the same. -/
theorem Effect.resolve_unique {path : Path} {cs : List Component} {d : Ino} {s s' : Session}
    {o : List (Ino × List Component)} {e : List (Ino × Name)} (h : Effect s s' o e)
    (hd : ∀ i, s.fs.resolve path cs = some i → i = d) :
    ∀ i, s'.fs.resolve path cs = some i → i = d := by
  intro i hi
  rw [h.fs] at hi
  exact hd i (FileSystem.resolve_of_without hi)

/-- **The loop over a listing**, when the recursion removes what it is given. -/
theorem sweeps_loop {remove : Path → Session → Option (Bool × Session)}
    (hremove : ∀ path s r s', remove path s = some (r, s') → Removes path s r s')
    {path : Path} (hpath : path ≠ []) {d : Ino} {names : List Component} {s s' : Session} {r : Bool}
    (hd : ∀ i, s.fs.resolve path (components path) = some i → i = d)
    (h : Remove.loop remove path names s = some (r, s')) : Sweeps d names s r s' := by
  induction names generalizing s with
  | nil =>
    obtain ⟨rfl, rfl⟩ := Prod.mk.inj (Option.some.inj h)
    refine ⟨[], [], Effect.refl s, Work.nil, fun _ x hx => ?_⟩
    obtain ⟨-, listing, hmem, hn⟩ := hx
    obtain ⟨-, rfl⟩ := Prod.mk.inj (List.mem_singleton.1 hmem)
    cases hn
  | cons c rest ih =>
    rw [Remove.loop] at h
    split_ifs at h with hv hdir
    · obtain ⟨n, rfl⟩ := exists_name_of_visible hv
      split at h
      · cases h
      · rename_i s₁ hs₁
        obtain ⟨rfl, rfl⟩ := Prod.mk.inj (Option.some.inj h)
        exact Sweeps.stop hpath hv hd (hremove _ _ _ _ hs₁)
      · rename_i s₁ hs₁
        have hrem := hremove _ _ _ _ hs₁
        obtain ⟨o, e, heff, -⟩ := hrem
        exact Sweeps.next hpath hv hd (hremove _ _ _ _ hs₁) (ih (heff.resolve_unique hd) h)
    · obtain ⟨n, rfl⟩ := exists_name_of_visible hv
      split at h
      · rename_i s₁ hs₁
        obtain ⟨rfl, rfl⟩ := Prod.mk.inj (Option.some.inj h)
        exact Sweeps.stop hpath hv hd (removes_remove hs₁)
      · rename_i s₁ hs₁
        obtain ⟨o, e, heff, -⟩ := removes_remove hs₁
        exact Sweeps.next hpath hv hd (removes_remove hs₁) (ih (heff.resolve_unique hd) h)
    · exact (ih hd h).skip hv

/-- A listing that is worked through belongs to the directory the path name leads to. -/
theorem Work.of_listing {fs : FileSystem} {root : Ino → Prop} {own : Ino × Name → Prop} {d : Ino}
    {names : List Component} {o : List (Ino × List Component)} {e : List (Ino × Name)}
    (hroot : root d) (hnames : ∀ n, .name n ∈ names → ∃ i, (n, i) ∈ fs.entries d)
    (h : Work fs (· = d) (Listed [(d, names)]) o e) :
    Work fs root own ([(d, names)] ++ o) e where
  visited x hx := by
    rcases List.mem_cons.1 hx with rfl | hx
    · exact ⟨d, hroot, .refl⟩
    · obtain ⟨r, rfl, hreach⟩ := h.visited x hx
      exact ⟨r, hroot, hreach⟩
  listed x hx := by
    rcases List.mem_cons.1 hx with rfl | hx
    · exact hnames
    · exact h.listed x hx
  present := h.present
  taken x hx := Or.inr (listed_append.2 (h.taken x hx))

section Directory

variable {path : Path} {d : Ino} {names : List Component} {s s₀ s₁ s' : Session} {r : Bool}

/-- The directory stays when its listing is not worked through. -/
theorem Removes.stop (hlist : s.fs.opendir path = some (d, names))
    (hread : Effect s s₀ [(d, names)] []) (h : Sweeps d names s₀ false s') :
    Removes path s false s' := by
  obtain ⟨hstat, hnames⟩ := FileSystem.opendir_eq_some hlist
  obtain ⟨o, e, heff, hwork, -⟩ := h
  rw [hread.fs, FileSystem.without_nil] at hwork
  exact ⟨_, _, hread.trans heff, hwork.of_listing hstat fun n => (hnames n).1, by simp⟩

/-- **The directory itself is removed** behind its listing. -/
theorem Removes.finish (hlist : s.fs.opendir path = some (d, names))
    (hread : Effect s s₀ [(d, names)] []) (h : Sweeps d names s₀ true s₁)
    (h' : Removes path s₁ r s') : Removes path s r s' := by
  obtain ⟨hstat, hnames⟩ := FileSystem.opendir_eq_some hlist
  obtain ⟨o, e, heff, hwork, hdone⟩ := h
  obtain ⟨o', e', heff', hwork', hdone'⟩ := h'
  rw [hread.fs, FileSystem.without_nil] at hwork
  -- the last call finds the file system without what the loop has removed
  rw [heff.fs, hread.fs, FileSystem.without_nil] at hwork' hdone'
  refine ⟨_, _, (hread.trans heff).trans heff', ?_, fun hr => ?_⟩
  · exact (hwork.of_listing hstat fun n => (hnames n).1).append
      (hwork'.of_without.mono (fun i hi => ⟨i, FileSystem.stat_of_without hi, .refl⟩)
        fun x hx => FileSystem.entryOf_of_without hx)
  · obtain ⟨hcomplete, x, hmem, hx⟩ := hdone' hr
    refine ⟨(hdone rfl).append hcomplete, x, ?_, FileSystem.entryOf_of_without hx⟩
    exact List.mem_append_right _ hmem

end Directory

/-- Opening a directory changes nothing. -/
theorem effect_opendir {path : Path} {names : List Component} {s s₀ : Session}
    (h : s.opendir path = some (names, s₀)) :
    ∃ d, s.fs.opendir path = some (d, names) ∧ Effect s s₀ [(d, names)] [] := by
  obtain ⟨⟨d, listing⟩, hopen, hs₀⟩ := Option.map_eq_some_iff.1 h
  obtain ⟨rfl, rfl⟩ := Prod.mk.inj hs₀
  exact ⟨d, hopen, (FileSystem.without_nil _).symm, rfl, by simp⟩

/-- **What `Remove` does**, by induction on the depth of the recursion. -/
theorem removes_Remove {fuel : ℕ} {path : Path} {s s' : Session} {r : Bool}
    (h : Remove fuel path s = some (r, s')) : Removes path s r s' := by
  induction fuel generalizing path s r s' with
  | zero => cases h
  | succ fuel ih =>
    rw [Remove] at h
    split_ifs at h with hdir
    · split at h
      · -- the directory cannot be read: a line on the error stream is all that happens
        obtain ⟨rfl, rfl⟩ := Prod.mk.inj (Option.some.inj h)
        exact ⟨[], [], ⟨(FileSystem.without_nil _).symm, by simp [Session.report],
          by simp [Session.report]⟩, Work.nil, by simp⟩
      · rename_i names s₀ hs₀
        obtain ⟨d, hlist, hread⟩ := effect_opendir hs₀
        have hstat := (FileSystem.opendir_eq_some hlist).1
        have hd : ∀ i, s₀.fs.resolve path (components path) = some i → i = d :=
          hread.resolve_unique fun i hi =>
            Option.some.inj (hi.symm.trans (FileSystem.resolve_of_stat hstat))
        have hloop : ∀ q s₁, Remove.loop (Remove fuel) path names s₀ = some (q, s₁) →
            Sweeps d names s₀ q s₁ := fun q s₁ =>
          sweeps_loop (fun _ _ _ _ => ih) (FileSystem.ne_nil_of_resolve hstat) hd
        split at h
        · cases h
        · rename_i s₁ hs₁
          obtain ⟨rfl, rfl⟩ := Prod.mk.inj (Option.some.inj h)
          exact Removes.stop hlist hread (hloop _ _ hs₁)
        · rename_i s₁ hs₁
          exact Removes.finish hlist hread (hloop _ _ hs₁) (removes_remove (Option.some.inj h))
    · exact removes_remove (Option.some.inj h)

/-! ### The recursion ends -/

/-- The loop ends when the recursion does, for path names of directories. -/
theorem isSome_loop {m fuel : ℕ} {path : Path} (names : List Component) {s : Session}
    (hremove : ∀ path s, s.fs.pathMax = some m → IsDirectory s.fs path →
      m ≤ path.length + fuel → (Remove fuel path s).isSome)
    (hm : s.fs.pathMax = some m) (hfuel : m ≤ path.length + (fuel + 1)) :
    (Remove.loop (Remove fuel) path names s).isSome := by
  induction names generalizing s with
  | nil => rfl
  | cons c rest ih =>
    have hkeep : ∀ {s₁ r}, Removes (value path c.chars) s r s₁ → s₁.fs.pathMax = some m := by
      rintro s₁ r ⟨o, e, heff, -⟩
      rw [heff.fs]
      exact hm
    rw [Remove.loop]
    split_ifs with hv hdir
    · have hlong : path.length < (value path c.chars).length := length_value c.chars_ne_nil
      obtain ⟨⟨r, s₁⟩, hs₁⟩ := Option.isSome_iff_exists.1 (hremove _ s hm hdir (by omega))
      rw [hs₁]
      rcases r with _ | _
      · rfl
      · exact ih (hkeep (removes_Remove hs₁))
    · rcases hs₁ : s.remove (value path c.chars) with ⟨_ | _, s₁⟩
      · rfl
      · exact ih (hkeep (removes_remove hs₁))
    · exact ih hm

/-- **`Remove` returns** where the length of path names is limited: each level of the recursion
has a longer one, links that go round in circles included. -/
theorem isSome_Remove {m fuel : ℕ} {path : Path} {s : Session} (hm : s.fs.pathMax = some m)
    (hdir : IsDirectory s.fs path) (hfuel : m ≤ path.length + fuel) :
    (Remove fuel path s).isSome := by
  induction fuel generalizing path s with
  | zero =>
    -- the path name of a directory is not too long
    obtain ⟨d, hstat, -⟩ := isDirectory_iff.1 hdir
    obtain ⟨hfits, -⟩ := FileSystem.resolve_eq_some.1 hstat
    rw [FileSystem.fits, hm] at hfits
    simp only [Option.all_some, decide_eq_true_eq] at hfits
    omega
  | succ fuel ih =>
    rw [Remove, if_pos hdir]
    rcases hopen : s.opendir path with _ | ⟨names, s₀⟩
    · rfl
    · obtain ⟨d, -, hread⟩ := effect_opendir hopen
      have hm₀ : s₀.fs.pathMax = some m := by
        rw [hread.fs]
        exact hm
      obtain ⟨⟨r, s₁⟩, hs₁⟩ := Option.isSome_iff_exists.1
        (isSome_loop names (fun _ _ => ih) hm₀ hfuel)
      simp only [hs₁]
      rcases r with _ | _ <;> rfl

theorem loop_mono {f g : Path → Session → Option (Bool × Session)}
    (hfg : ∀ path s x, f path s = some x → g path s = some x) {path : Path}
    {names : List Component} {s : Session} {x : Bool × Session}
    (h : Remove.loop f path names s = some x) : Remove.loop g path names s = some x := by
  induction names generalizing s with
  | nil => exact h
  | cons c rest ih =>
    rw [Remove.loop] at h ⊢
    split_ifs at h ⊢ with hv hdir
    · split at h
      · cases h
      · rename_i hf
        rw [hfg _ _ _ hf]
        exact h
      · rename_i hf
        rw [hfg _ _ _ hf]
        exact ih h
    · rcases hs₁ : s.remove (value path c.chars) with ⟨_ | _, s₁⟩
      · rwa [hs₁] at h
      · rw [hs₁] at h
        exact ih h
    · exact ih h

/-- Once the fuel is enough, **more of it** changes nothing. -/
theorem Remove_succ {fuel : ℕ} {path : Path} {s : Session} {x : Bool × Session}
    (h : Remove fuel path s = some x) : Remove (fuel + 1) path s = some x := by
  induction fuel generalizing path s x with
  | zero => cases h
  | succ fuel ih =>
    rw [Remove] at h ⊢
    split_ifs at h ⊢ with hdir
    · rcases hopen : s.opendir path with _ | ⟨names, s₀⟩
      · rwa [hopen] at h
      · simp only [hopen] at h ⊢
        split at h
        · cases h
        · rename_i hloop
          rw [loop_mono (fun _ _ _ => ih) hloop]
          exact h
        · rename_i hloop
          rw [loop_mono (fun _ _ _ => ih) hloop]
          exact h
    · exact h

/-! ### The files outside the subtree -/

/-- **No file outside the subtree is changed**: each is what it was, and the directory the path
name ends in has lost that entry at most. -/
def Unchanged (fs : FileSystem) (path : Path) (fs' : FileSystem) : Prop :=
  ∀ i, ¬ fs.Below path i → fs'.node i = fs.node i ∨
    ∃ n, fs.entryOf path = some (i, n) ∧ fs'.node i = (fs.without [(i, n)]).node i

/-- **The recursion stays inside**: what is visible in a directory it opens belongs to the
subtree, or is the entry the path name ends in. It does not when it follows a link to a
directory outside that has a visible name. -/
def Calm (fs : FileSystem) (path : Path) (opened : List (Ino × List Component)) : Prop :=
  ∀ e, Listed opened e → fs.Below path e.1 ∨ fs.entryOf path = some e

/-- The same of all directories that visible entries lead to from the path name, links followed,
before anything is removed. -/
def Tame (fs : FileSystem) (path : Path) : Prop :=
  ∀ r d, fs.stat path = some r → Relation.ReflTransGen (Leads fs) r d →
    ∀ n i, (n, i) ∈ fs.entries d → visible n.chars →
      fs.Below path d ∨ fs.entryOf path = some (d, n)

/-- Entries of the subtree, or the one the path name ends in. -/
def Inside (fs : FileSystem) (path : Path) (es : List (Ino × Name)) : Prop :=
  ∀ e ∈ es, fs.Below path e.1 ∨ fs.entryOf path = some e

section Outside

variable {fs : FileSystem} {path : Path} {own : Ino × Name → Prop} {root : Ino → Prop}
  {o : List (Ino × List Component)} {e : List (Ino × Name)}

/-- Taking entries of the subtree away changes nothing outside. -/
theorem Inside.unchanged (h : Inside fs path e) : Unchanged fs path (fs.without e) := by
  intro i hi
  have hown : ∀ n, (i, n) ∈ e → fs.entryOf path = some (i, n) := fun n hn =>
    (h _ hn).resolve_left hi
  by_cases hsome : ∃ n, (i, n) ∈ e
  · -- the directory the path name ends in has lost no other entry
    obtain ⟨n, hn⟩ := hsome
    refine Or.inr ⟨n, hown n hn, FileSystem.node_without_congr fun m => ?_⟩
    constructor
    · intro hm
      rw [← Option.some.inj ((hown n hn).symm.trans (hown m hm))]
      exact List.mem_singleton_self _
    · intro hm
      rwa [List.mem_singleton.1 hm]
  · exact Or.inl (FileSystem.node_without_of_not_mem fun n hn => hsome ⟨n, hn⟩)

/-- **What is taken away outside** is a change outside. -/
theorem unchanged_iff_inside (hpresent : ∀ x ∈ e, ∃ i, (x.2, i) ∈ fs.entries x.1) :
    Unchanged fs path (fs.without e) ↔ Inside fs path e := by
  refine ⟨?_, Inside.unchanged⟩
  rintro hsame ⟨d, n⟩ hx
  obtain ⟨i, hi⟩ := hpresent _ hx
  have hgone : (n, i) ∉ (fs.without e).entries d := by
    rw [FileSystem.entries_without]
    simp [hx]
  by_cases hbelow : fs.Below path d
  · exact Or.inl hbelow
  · rcases hsame d hbelow with hnode | ⟨m, hentry, hnode⟩
    · -- the name cannot be gone from a file that is the same
      rw [FileSystem.entries, hnode] at hgone
      exact absurd hi hgone
    · rw [FileSystem.entries, hnode] at hgone
      have hnm : n = m := by
        by_contra hne
        refine hgone (?_ : (n, i) ∈ (fs.without [(d, m)]).entries d)
        rw [FileSystem.entries_without]
        simp [hi, hne]
      exact Or.inr (hnm ▸ hentry)

/-- Where the recursion stays inside, so does what it takes away. -/
theorem Work.inside (h : Work fs root (fs.entryOf path = some ·) o e) (hcalm : Calm fs path o) :
    Inside fs path e := by
  intro x hx
  rcases h.taken x hx with hown | hlisted
  · exact Or.inr hown
  · exact hcalm x hlisted

theorem Work.calm (h : Work fs (fs.stat path = some ·) own o e) (htame : Tame fs path) :
    Calm fs path o := by
  rintro ⟨d, n⟩ ⟨hv, listing, hmem, hn⟩
  obtain ⟨i, hi⟩ := h.listed _ hmem n hn
  obtain ⟨r, hr, hreach⟩ := h.visited _ hmem
  exact htame r d hr hreach n i hi hv

end Outside

/-- **Removing a directory changes nothing outside** as long as its recursion stays inside; when
it returns true, only then. It stays inside where no chain of visible entries, links followed,
leads from the path name to a directory outside with a visible name. Whatever it returns, what
is changed outside are the entries it has taken away there. -/
theorem Remove_unchanged {fuel : ℕ} {fs : FileSystem} {path : Path} {r : Bool} {s : Session}
    (h : Remove fuel path (Session.init fs) = some (r, s)) :
    (Calm fs path s.opened → Unchanged fs path s.fs) ∧
      (r = true → (Unchanged fs path s.fs ↔ Calm fs path s.opened)) ∧
      (Tame fs path → Calm fs path s.opened) ∧
      (Unchanged fs path s.fs ↔ Inside fs path s.removed) := by
  obtain ⟨o, e, heff, hwork, hdone⟩ := removes_Remove h
  have hopened : s.opened = o := heff.opened
  have hremoved : s.removed = e := heff.removed
  have hfs : s.fs = fs.without e := heff.fs
  have hiff : Unchanged fs path (fs.without e) ↔ Inside fs path e :=
    unchanged_iff_inside hwork.present
  rw [hopened, hremoved, hfs]
  have henough : Calm fs path o → Unchanged fs path (fs.without e) := fun hcalm =>
    hiff.2 (hwork.inside hcalm)
  refine ⟨henough, fun hr => ⟨fun hsame x hx => ?_, henough⟩, hwork.calm, hiff⟩
  exact hiff.1 hsame x ((hdone hr).1 x hx)

/-! ### A link to a directory outside -/

/-- The path name names a directory, and no link is followed on the way. -/
def Direct (fs : FileSystem) (path : Path) : Prop :=
  ∃ c d, fs.start fs.cwd path = some c ∧ fs.follow 0 c (parts path) = some d ∧ fs.isDirectory d

/-- The directories `p` and `o`; the first holds a link to the second, the second a file. -/
def linkedOutside : FileSystem where
  node
    | 0 => some (.directory
        ⟨0, [(.letter 'p' (by decide), 1), (.letter 'o' (by decide), 2)], true, true, true⟩)
    | 1 => some (.directory ⟨0, [(.letter 'l' (by decide), 3)], true, true, true⟩)
    | 2 => some (.directory ⟨0, [(.letter 'f' (by decide), 4)], true, true, true⟩)
    | 3 => some (.link ['/', 'o'])
    | 4 => some (.regular [])
    | _ => none
  root := 0
  cwd := 0
  symloopMax := 40
  pathMax := some 4096

/-- `Remove` empties a directory that the one to be removed has only a link to. -/
theorem Remove_linkedOutside : Direct linkedOutside ['/', 'p'] ∧
    ∃ s, Remove 3 ['/', 'p'] (Session.init linkedOutside) = some (true, s) ∧
      ¬ Unchanged linkedOutside ['/', 'p'] s.fs := by
  refine ⟨⟨0, 1, by decide, by decide, by decide⟩, ?_⟩
  have hrun : (Remove 3 ['/', 'p'] (Session.init linkedOutside)).map
      (fun x => (x.1, x.2.fs.entries 2)) = some (true, []) := by decide +kernel
  obtain ⟨⟨r, s⟩, hs, h⟩ := Option.map_eq_some_iff.1 hrun
  obtain ⟨rfl, hempty⟩ := Prod.mk.inj h
  refine ⟨s, hs, fun hsame => ?_⟩
  have hbelow : ¬ linkedOutside.Below ['/', 'p'] 2 := by
    rintro ⟨r, hr, hreach⟩
    -- the subtree is the directory and the link
    have hsub : ∀ i, Relation.ReflTransGen linkedOutside.Child r i → i = 1 ∨ i = 3 := by
      intro i hi
      induction hi with
      | refl => exact Or.inl (Option.some.inj (hr.symm.trans (by decide)))
      | tail _ hchild ih =>
        obtain ⟨n, hn⟩ := hchild
        rcases ih with rfl | rfl
        · exact Or.inr (Prod.mk.inj (List.mem_singleton.1 hn)).2
        · cases hn
    rcases hsub 2 hreach with h | h <;> cases h
  rcases hsame 2 hbelow with hnode | ⟨n, hentry, -⟩
  · rw [FileSystem.entries, hnode] at hempty
    cases hempty
  · have hzero : (linkedOutside.entryOf ['/', 'p']).map Prod.fst = some 0 := by decide
    rw [hentry] at hzero
    cases hzero

/-- The link leads to the file in the other directory. -/
def linkedFile : FileSystem :=
  { linkedOutside with
    node := Function.update linkedOutside.node 3 (some (.link ['/', 'o', '/', 'f'])) }

/-- The file that a link in the directory leads to is left alone: only the link is removed. -/
theorem Remove_unchanged_linkedFile : linkedFile.stat ['/', 'p', '/', 'l'] = some 4 ∧ ∃ s,
    Remove 3 ['/', 'p'] (Session.init linkedFile) = some (true, s) ∧
      Unchanged linkedFile ['/', 'p'] s.fs := by
  refine ⟨by decide, ?_⟩
  have hrun : (Remove 3 ['/', 'p'] (Session.init linkedFile)).map
      (fun x => (x.1, x.2.opened.map Prod.fst)) = some (true, [1]) := by decide +kernel
  obtain ⟨⟨r, s⟩, hs, h⟩ := Option.map_eq_some_iff.1 hrun
  obtain ⟨rfl, hopened⟩ := Prod.mk.inj h
  refine ⟨s, hs, (Remove_unchanged hs).1 fun e he => Or.inl ?_⟩
  obtain ⟨-, listing, hmem, -⟩ := he
  have h1 : e.1 ∈ s.opened.map Prod.fst := List.mem_map_of_mem hmem
  rw [hopened, List.mem_singleton] at h1
  exact ⟨1, by decide, h1 ▸ .refl⟩

end Filesystem

end MToolkit

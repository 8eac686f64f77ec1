import Mathlib.Tactic
import MToolkit.Library.Lts
import MToolkit.Library.PartialMap

/-!
# The factories of plugs

`RegisterPlugFactory` and `LoadDriver` (`module/plug_base_factory.cpp`), with the toolkit as a
shared library, so that the program and all drivers have one `PlugMap`. The constructors of a driver
register its factories when it is loaded; nothing takes them out again when it is unloaded. The
dynamic linker counts the handles of a library. With the last one it may unload it, but it need
not: a library that it has marked when it was loaded stays, without handles, for good. Which ones
it marks is left open.

A name belongs to the first that registers it, so that `LoadDriver` of one driver can call the
factory of another (`MToolkit.PlugFactory.loadDriver_eq`). A driver that a plug has been made of is
never unloaded, but one that has been loaded in vain, and is unloaded again, leaves its factories
behind: all factories lie in libraries that are loaded just as long as no such call has been made
(`MToolkit.PlugFactory.allLive_iff`).
-/

namespace MToolkit

universe u v

variable {π : Type u} {ν : Type v}

/-- A library that can be opened. -/
structure PlugLibrary (ν : Type v) where
  /-- The names that its constructors register, in their order. -/
  names : List ν
  /-- `GetDeviceBaseClass` is found in it, or in what it is linked with. -/
  symbol : Bool
  /-- With its last handle it is unloaded, if the number of its load is this one. The linker may
  decide otherwise at another load, as what it marks (a library that defines a unique symbol, say)
  depends on what else is loaded. -/
  unloads : ℕ → Bool

/-- Where a factory lies: in the program, or in a library, with the number of its load. -/
inductive PlugSource (π : Type u) where
  | program : PlugSource π
  | library (path : π) (load : ℕ) : PlugSource π

/-- A library that is loaded. -/
structure PlugLoaded where
  load : ℕ
  handles : ℕ

/-- The factories, and the libraries that the dynamic linker has loaded. -/
structure PlugFactory (π : Type u) (ν : Type v) where
  /-- `PlugMap` -/
  plugMap : ν → Option (PlugSource π)
  loaded : π → Option PlugLoaded
  /-- The number of the next load. -/
  next : ℕ

/-- The path of the library that a factory lies in. -/
def PlugSource.path : PlugSource π → Option π
  | .program => none
  | .library path _ => some path

namespace PlugFactory

def init : PlugFactory π ν where
  plugMap _ := none
  loaded _ := none
  next := 0

variable [DecidableEq π] [DecidableEq ν]

/-- `RegisterPlugFactory`, with `PlugMap`. -/
def registerPlugFactory (plugMap : ν → Option (PlugSource π)) (name : ν) (source : PlugSource π) :
    ν → Option (PlugSource π) :=
  PartialMap.insert plugMap name source

/-- `dlopen` of a library that is there. Its constructors are run when it is loaded. -/
def dlopen (s : PlugFactory π ν) (path : π) (library : PlugLibrary ν) : PlugFactory π ν :=
  match s.loaded path with
  | some l => { s with
    loaded := Function.update s.loaded path (some { l with handles := l.handles + 1 }) }
  | none =>
    { plugMap := library.names.foldl
        (fun plugMap name => registerPlugFactory plugMap name (.library path s.next)) s.plugMap
      loaded := Function.update s.loaded path (some { load := s.next, handles := 1 })
      next := s.next + 1 }

/-- `dlclose` -/
def dlclose (s : PlugFactory π ν) (path : π) (library : PlugLibrary ν) : PlugFactory π ν :=
  match s.loaded path with
  | some l => { s with
    loaded := Function.update s.loaded path
      (if l.handles = 1 ∧ library.unloads l.load = true then none
        else some { l with handles := l.handles - 1 }) }
  | none => s

/-- `LoadDriver`, with the factory that is called. -/
def loadDriver (libraries : π → Option (PlugLibrary ν)) (s : PlugFactory π ν) (path : π)
    (name : ν) : Option (PlugSource π) × PlugFactory π ν :=
  match libraries path with
  | none => (none, s)
  | some library =>
    let s := s.dlopen path library
    if library.symbol then
      match s.plugMap name with
      | some source => (some source, s)
      | none => (none, s.dlclose path library)
    else (none, s.dlclose path library)

/-- What a program calls. -/
inductive Act (π : Type u) (ν : Type v) where
  | registerPlugFactory (name : ν) : Act π ν
  | loadDriver (path : π) (name : ν) : Act π ν

/-- One call. -/
def act (libraries : π → Option (PlugLibrary ν)) (s : PlugFactory π ν) :
    Act π ν → PlugFactory π ν
  | .registerPlugFactory name =>
    { s with plugMap := registerPlugFactory s.plugMap name .program }
  | .loadDriver path name => (s.loadDriver libraries path name).2

/-- The factory lies in what is loaded. -/
def Live (s : PlugFactory π ν) : PlugSource π → Prop
  | .program => True
  | .library path load => ∃ l, s.loaded path = some l ∧ l.load = load

variable {libraries : π → Option (PlugLibrary ν)} {s : PlugFactory π ν} {path q : π}
  {library : PlugLibrary ν} {name n : ν} {l : PlugLoaded} {source : PlugSource π}

/-! ### What always holds -/

/-- **Names have one owner, libraries one load**: a library that is loaded has handles, if it would
be unloaded without, and its names are registered. -/
structure Sound (libraries : π → Option (PlugLibrary ν)) (s : PlugFactory π ν) : Prop where
  handles : ∀ {path l library}, s.loaded path = some l → libraries path = some library →
    library.unloads l.load = true → 1 ≤ l.handles
  load_lt : ∀ {path l}, s.loaded path = some l → l.load < s.next
  names : ∀ {path l library}, s.loaded path = some l → libraries path = some library →
    ∀ n ∈ library.names, (s.plugMap n).isSome
  source_lt : ∀ {n path load}, s.plugMap n = some (.library path load) → load < s.next

omit [DecidableEq π] [DecidableEq ν] in
theorem sound_init : Sound libraries init where
  handles h := nomatch h
  load_lt h := nomatch h
  names h := nomatch h
  source_lt h := nomatch h

omit [DecidableEq π] in
theorem registerPlugFactory_apply (plugMap : ν → Option (PlugSource π)) (name : ν)
    (source : PlugSource π) (n : ν) : registerPlugFactory plugMap name source n =
      (plugMap n).or (if n = name then some source else none) := by
  rw [registerPlugFactory]
  cases hname : plugMap name with
  | some owner =>
    rw [PartialMap.insert_of_some hname]
    by_cases hn : n = name
    · rw [hn, hname, Option.some_or]
    · rw [if_neg hn, Option.or_none]
  | none =>
    rw [PartialMap.insert_of_none hname]
    by_cases hn : n = name
    · rw [hn, Function.update_self, hname, if_pos rfl, Option.none_or]
    · rw [Function.update_of_ne hn, if_neg hn, Option.or_none]

omit [DecidableEq π] in
/-- The first that registers a name owns it. -/
theorem foldl_registerPlugFactory (names : List ν) (plugMap : ν → Option (PlugSource π))
    (source : PlugSource π) (n : ν) :
    names.foldl (fun plugMap name => registerPlugFactory plugMap name source) plugMap n =
      (plugMap n).or (if n ∈ names then some source else none) := by
  induction names generalizing plugMap with
  | nil => simp
  | cons name names ih =>
    rw [List.foldl_cons, ih, registerPlugFactory_apply, Option.or_assoc]
    by_cases hn : n = name <;> simp [hn]

/-- **What opening a library does to the names.** -/
theorem Sound.plugMap_dlopen (h : Sound libraries s) (hlibrary : libraries path = some library)
    (n : ν) : (s.dlopen path library).plugMap n =
      (s.plugMap n).or (if n ∈ library.names then some (.library path s.next) else none) := by
  rw [dlopen]
  cases hloaded : s.loaded path with
  | none => exact foldl_registerPlugFactory ..
  | some l =>
    by_cases hn : n ∈ library.names
    · obtain ⟨owner, howner⟩ := Option.isSome_iff_exists.mp (h.names hloaded hlibrary n hn)
      rw [howner, Option.some_or]
    · rw [if_neg hn, Option.or_none]

/-- What is loaded for a path that has been opened. -/
theorem loaded_dlopen : (s.dlopen path library).loaded path =
    some ((s.loaded path).elim ⟨s.next, 1⟩ fun l => { l with handles := l.handles + 1 }) := by
  rw [dlopen]
  cases s.loaded path <;> exact Function.update_self ..

/-- A library that is opened and closed is as it was, unless it was not loaded and stays. -/
theorem Sound.loaded_dlclose (h : Sound libraries s) (hlibrary : libraries path = some library)
    (hunloads : s.loaded path = none → library.unloads s.next = true) :
    ((s.dlopen path library).dlclose path library).loaded = s.loaded := by
  rw [dlclose, loaded_dlopen]
  cases hloaded : s.loaded path with
  | none =>
    simp only [dlopen, hloaded, Option.elim_none, hunloads hloaded, and_self, if_true,
      Function.update_idem]
    rw [← hloaded, Function.update_eq_self]
  | some l =>
    have hne : ¬(l.handles + 1 = 1 ∧ library.unloads l.load = true) := by
      rintro ⟨hone, hload⟩
      have hhandles := h.handles hloaded hlibrary hload
      omega
    simp only [dlopen, hloaded, Option.elim_some, if_neg hne, Function.update_idem,
      Nat.add_sub_cancel]
    rw [← hloaded, Function.update_eq_self]

omit [DecidableEq ν] in
theorem plugMap_dlclose : (s.dlclose path library).plugMap = s.plugMap := by
  rw [dlclose]
  cases s.loaded path <;> rfl

/-- **What `LoadDriver` does**: it keeps a library just where it finds the name. -/
theorem loadDriver_cases (hlibrary : libraries path = some library) (name : ν) :
    (∃ source, library.symbol = true ∧ (s.dlopen path library).plugMap name = some source ∧
      s.loadDriver libraries path name = (some source, s.dlopen path library)) ∨
    ((library.symbol = false ∨ (s.dlopen path library).plugMap name = none) ∧
      s.loadDriver libraries path name =
        (none, (s.dlopen path library).dlclose path library)) := by
  rw [loadDriver, hlibrary]
  dsimp only
  by_cases hsymbol : library.symbol = true
  · rw [if_pos hsymbol]
    cases hname : (s.dlopen path library).plugMap name with
    | none => exact .inr ⟨.inr rfl, rfl⟩
    | some source => exact .inl ⟨source, hsymbol, rfl, rfl⟩
  · rw [if_neg hsymbol]
    exact .inr ⟨.inl (Bool.not_eq_true _ ▸ hsymbol), rfl⟩

/-- The names after a call of `LoadDriver`. -/
theorem Sound.plugMap_loadDriver (h : Sound libraries s) (hlibrary : libraries path = some library)
    (name n : ν) : (s.loadDriver libraries path name).2.plugMap n =
      (s.plugMap n).or (if n ∈ library.names then some (.library path s.next) else none) := by
  rw [← h.plugMap_dlopen hlibrary n]
  rcases loadDriver_cases hlibrary name with ⟨source, -, -, heq⟩ | ⟨-, heq⟩
  · rw [heq]
  · rw [heq, plugMap_dlclose]

omit [DecidableEq π] [DecidableEq ν] in
/-- Nothing else is registered or loaded. -/
theorem Sound.of_loaded {loaded : π → Option PlugLoaded} (h : Sound libraries s)
    (hloaded : ∀ q l', loaded q = some l' →
      (∀ library, libraries q = some library → library.unloads l'.load = true → 1 ≤ l'.handles) ∧
        ∃ l, s.loaded q = some l ∧ l.load = l'.load) :
    Sound libraries { s with loaded := loaded } where
  handles hl' := (hloaded _ _ hl').1 _
  load_lt hl' := by
    obtain ⟨-, l, hl, hload⟩ := hloaded _ _ hl'
    exact hload ▸ h.load_lt hl
  names hl' hlibrary := by
    obtain ⟨-, l, hl, -⟩ := hloaded _ _ hl'
    exact h.names hl hlibrary
  source_lt := h.source_lt

theorem Sound.dlopen (h : Sound libraries s) (hlibrary : libraries path = some library) :
    Sound libraries (s.dlopen path library) := by
  have hplug := h.plugMap_dlopen hlibrary
  rw [PlugFactory.dlopen] at hplug ⊢
  cases hpath : s.loaded path with
  | some l =>
    refine h.of_loaded fun q l' hl' => ?_
    rw [PartialMap.update_eq_some] at hl'
    rcases hl' with ⟨rfl, rfl⟩ | ⟨-, hl'⟩
    · exact ⟨fun _ _ _ => Nat.le_add_left _ _, l, hpath, rfl⟩
    · exact ⟨fun _ => h.handles hl', l', hl', rfl⟩
  | none =>
    rw [hpath] at hplug
    dsimp only at hplug ⊢
    refine ⟨fun hl hlib hload => ?_, fun hl => ?_, fun hl hlib n hn => ?_,
      fun {n q load} hn => ?_⟩
    · rcases PartialMap.update_eq_some.mp hl with ⟨-, rfl⟩ | ⟨-, hl⟩
      · exact le_rfl
      · exact h.handles hl hlib hload
    · rcases PartialMap.update_eq_some.mp hl with ⟨-, rfl⟩ | ⟨-, hl⟩
      · exact Nat.lt_succ_self _
      · exact (h.load_lt hl).trans (Nat.lt_succ_self _)
    · refine (congrArg Option.isSome (hplug n)).trans ?_
      rcases PartialMap.update_eq_some.mp hl with ⟨rfl, rfl⟩ | ⟨-, hl⟩
      · obtain rfl := Option.some.inj (hlibrary.symm.trans hlib)
        rw [if_pos hn, Option.isSome_or, Option.isSome_some, Bool.or_true]
      · rw [Option.isSome_or, h.names hl hlib n hn, Bool.true_or]
    · rcases Option.or_eq_some_iff.mp ((hplug n).symm.trans hn) with hn | ⟨-, hn⟩
      · exact (h.source_lt hn).trans (Nat.lt_succ_self _)
      · split_ifs at hn
        cases hn
        exact Nat.lt_succ_self _

omit [DecidableEq ν] in
theorem Sound.dlclose (h : Sound libraries s) (hlibrary : libraries path = some library) :
    Sound libraries (s.dlclose path library) := by
  rw [PlugFactory.dlclose]
  cases hpath : s.loaded path with
  | none => exact h
  | some l =>
    refine h.of_loaded fun q l' hl' => ?_
    by_cases hq : q = path
    · subst hq
      rw [Function.update_self] at hl'
      split_ifs at hl' with hone
      cases hl'
      refine ⟨fun lib hlib hload => ?_, l, hpath, rfl⟩
      obtain rfl := Option.some.inj (hlibrary.symm.trans hlib)
      have hhandles := h.handles hpath hlib hload
      have hne : l.handles ≠ 1 := fun h1 => hone ⟨h1, hload⟩
      dsimp only
      omega
    · rw [Function.update_of_ne hq] at hl'
      exact ⟨fun _ => h.handles hl', l', hl', rfl⟩

/-- A call keeps things in order. -/
theorem Sound.act (h : Sound libraries s) (a : Act π ν) : Sound libraries (s.act libraries a) := by
  cases a with
  | registerPlugFactory name =>
    refine ⟨h.handles, h.load_lt, fun hl hlib n hn => ?_, fun {n q load} hn => ?_⟩
    · refine (congrArg Option.isSome (registerPlugFactory_apply ..)).trans ?_
      rw [Option.isSome_or, h.names hl hlib n hn, Bool.true_or]
    · have hn := (registerPlugFactory_apply s.plugMap name .program n).symm.trans hn
      rcases Option.or_eq_some_iff.mp hn with hn | ⟨-, hn⟩
      · exact h.source_lt hn
      · split_ifs at hn
        cases hn
  | loadDriver path name =>
    rw [PlugFactory.act]
    cases hlibrary : libraries path with
    | none =>
      rw [loadDriver, hlibrary]
      exact h
    | some library =>
      rcases loadDriver_cases hlibrary name with ⟨source, -, -, heq⟩ | ⟨-, heq⟩
      · rw [heq]
        exact h.dlopen hlibrary
      · rw [heq]
        exact (h.dlopen hlibrary).dlclose hlibrary

/-- The state after the calls. -/
def after (libraries : π → Option (PlugLibrary ν)) (acts : List (Act π ν)) : PlugFactory π ν :=
  acts.foldl (act libraries) init

theorem sound_after (acts : List (Act π ν)) : Sound libraries (after libraries acts) := by
  rw [after]
  exact List.foldlRecOn acts (act libraries) sound_init fun s h a _ => h.act a

/-! ### Whose factory is called -/

/-- The call registers the name, if it is free. -/
def offers (libraries : π → Option (PlugLibrary ν)) (n : ν) : Act π ν → Bool
  | .registerPlugFactory name => n = name
  | .loadDriver path _ => (libraries path).any fun library => n ∈ library.names

/-- The path of the library that is opened. -/
def Act.opens : Act π ν → Option π
  | .registerPlugFactory _ => none
  | .loadDriver path _ => some path

/-- **What a call does to a name.** -/
theorem Sound.owner_act (h : Sound libraries s) (a : Act π ν) (n : ν) :
    ((s.act libraries a).plugMap n).map PlugSource.path =
      ((s.plugMap n).map PlugSource.path).or
        (if offers libraries n a then some a.opens else none) := by
  cases a with
  | registerPlugFactory name =>
    refine (congrArg (Option.map PlugSource.path) (registerPlugFactory_apply ..)).trans ?_
    rw [Option.map_or]
    by_cases hn : n = name <;> simp [hn, offers, Act.opens, PlugSource.path]
  | loadDriver path name =>
    rw [PlugFactory.act]
    cases hlibrary : libraries path with
    | none => simp [loadDriver, offers, hlibrary]
    | some library =>
      rw [h.plugMap_loadDriver hlibrary, Option.map_or]
      by_cases hn : n ∈ library.names <;> simp [hn, offers, hlibrary, Act.opens, PlugSource.path]

/-- The first call that offers a name has registered it. -/
theorem owner_after (acts : List (Act π ν)) (n : ν) :
    ((after libraries acts).plugMap n).map PlugSource.path =
      (acts.find? (offers libraries n)).map Act.opens := by
  induction acts using List.reverseRecOn with
  | nil => rfl
  | append_singleton acts a ih =>
    rw [after, List.foldl_concat, ← after, (sound_after acts).owner_act, ih, List.find?_append,
      Option.map_or, List.find?_singleton]
    split_ifs <;> rfl

/-- The handles of a library. -/
def handles (s : PlugFactory π ν) (path : π) : ℕ := (s.loaded path).elim 0 PlugLoaded.handles

/-- The call is one of `LoadDriver`, of this library, and a factory is called. -/
def made (libraries : π → Option (PlugLibrary ν)) (q : π) : PlugFactory π ν × Act π ν → Bool
  | (s, .loadDriver path name) => q = path && (s.loadDriver libraries path name).1.isSome
  | _ => false

theorem handles_dlopen : (s.dlopen path library).handles q =
    s.handles q + if q = path then 1 else 0 := by
  rw [handles, handles, PlugFactory.dlopen]
  by_cases hq : q = path
  · subst hq
    cases hpath : s.loaded q <;> simp
  · cases hpath : s.loaded path <;> simp [hq]

omit [DecidableEq ν] in
theorem handles_dlclose : (s.dlclose path library).handles q =
    s.handles q - if q = path then 1 else 0 := by
  rw [handles, handles, PlugFactory.dlclose]
  by_cases hq : q = path
  · subst hq
    cases hpath : s.loaded q with
    | none => simp [hpath]
    | some l => by_cases hone : l.handles = 1 ∧ library.unloads l.load = true <;> simp [hone]
  · cases hpath : s.loaded path <;> simp [hq]

theorem handles_act (a : Act π ν) (q : π) :
    (s.act libraries a).handles q =
      s.handles q + if made libraries q (s, a) then 1 else 0 := by
  cases a with
  | registerPlugFactory name => rfl
  | loadDriver path name =>
    rw [PlugFactory.act, made]
    cases hlibrary : libraries path with
    | none => simp [loadDriver, hlibrary]
    | some library =>
      rcases loadDriver_cases hlibrary name with ⟨source, -, -, heq⟩ | ⟨-, heq⟩
      · rw [heq, handles_dlopen]
        by_cases hq : q = path <;> simp [hq]
      · rw [heq, handles_dlclose, handles_dlopen]
        simp

/-- **Which factory `LoadDriver` calls**: that of the first call which has offered the name, be it
of this library or not, and be it that the library of that call has been unloaded since. A library
has as many handles as plugs have been made by opening it, and is never unloaded once it has
one. -/
theorem loadDriver_eq (libraries : π → Option (PlugLibrary ν)) (acts : List (Act π ν)) (path q : π)
    (name : ν) :
    ((after libraries acts).loadDriver libraries path name).1.map PlugSource.path =
        (if (libraries path).any PlugLibrary.symbol then
          ((acts ++ [Act.loadDriver path name]).find? (offers libraries name)).map Act.opens
        else none) ∧
      (after libraries acts).handles q =
        (Lts.steps (act libraries) init acts).countP (made libraries q) := by
  constructor
  · have howner : ((after libraries (acts ++ [.loadDriver path name])).plugMap name).map
        PlugSource.path = _ := owner_after _ name
    rw [after, List.foldl_concat, ← after, PlugFactory.act] at howner
    rw [← howner]
    cases hlibrary : libraries path with
    | none => simp [loadDriver, hlibrary]
    | some library =>
      rw [Option.any_some]
      rcases loadDriver_cases hlibrary name with ⟨source, hsymbol, hname, heq⟩ | ⟨hfail, heq⟩
      · rw [heq, if_pos hsymbol, hname]
      · rw [heq, plugMap_dlclose]
        rcases hfail with hsymbol | hname
        · rw [hsymbol]
          rfl
        · rw [hname]
          split_ifs <;> rfl
  · have hrun : ∀ (acts : List (Act π ν)) (s : PlugFactory π ν),
        (acts.foldl (act libraries) s).handles q =
          s.handles q + (Lts.steps (act libraries) s acts).countP (made libraries q) := by
      intro acts
      induction acts with
      | nil => exact fun _ => rfl
      | cons a acts ih =>
        intro s
        rw [List.foldl_cons, ih, handles_act a, Lts.steps, List.countP_cons]
        omega
    rw [after, hrun acts]
    exact Nat.zero_add _

/-! ### Factories that are left behind -/

/-- All factories lie in what is loaded. -/
def AllLive (s : PlugFactory π ν) : Prop := ∀ n source, s.plugMap n = some source → s.Live source

/-- The call does not load a library in vain that is unloaded again and registers a name of its own:
where its symbol is not found, or neither it nor anything before has the name, it stays, or all its
names have been registered. -/
def Careful (libraries : π → Option (PlugLibrary ν)) (s : PlugFactory π ν) : Act π ν → Prop
  | .registerPlugFactory _ => True
  | .loadDriver path name => ∀ library, libraries path = some library → s.loaded path = none →
      (library.symbol = true → name ∉ library.names ∧ s.plugMap name = none) →
        library.unloads s.next = true → ∀ n ∈ library.names, (s.plugMap n).isSome

theorem Live.dlopen (h : s.Live source) : (s.dlopen path library).Live source := by
  cases source with
  | program => trivial
  | library q load =>
    obtain ⟨l, hl, rfl⟩ := h
    by_cases hq : q = path
    · subst hq
      refine ⟨{ l with handles := l.handles + 1 }, ?_, rfl⟩
      rw [PlugFactory.dlopen, hl]
      exact Function.update_self ..
    · refine ⟨l, ?_, rfl⟩
      rw [PlugFactory.dlopen]
      cases s.loaded path <;> exact (Function.update_of_ne hq ..).trans hl

omit [DecidableEq ν] in
/-- Closing a library that is not unloaded leaves all as it is. -/
theorem Live.dlclose (h : s.Live source)
    (hstays : ∀ l, s.loaded path = some l → library.unloads l.load = false) :
    (s.dlclose path library).Live source := by
  cases source with
  | program => trivial
  | library q load =>
    obtain ⟨l, hl, rfl⟩ := h
    rw [PlugFactory.dlclose]
    by_cases hq : q = path
    · subst hq
      rw [hl]
      refine ⟨{ l with handles := l.handles - 1 }, ?_, rfl⟩
      have hne : ¬(l.handles = 1 ∧ library.unloads l.load = true) := by
        rintro ⟨-, hload⟩
        rw [hstays l hl] at hload
        cases hload
      dsimp only
      rw [Function.update_self, if_neg hne]
    · refine ⟨l, ?_, rfl⟩
      cases s.loaded path with
      | none => exact hl
      | some _ => exact (Function.update_of_ne hq ..).trans hl

omit [DecidableEq ν] in
/-- Closing a library brings no factory back. -/
theorem Live.of_dlclose (h : (s.dlclose path library).Live source) : s.Live source := by
  cases source with
  | program => trivial
  | library q load =>
    obtain ⟨l, hl, rfl⟩ := h
    rw [PlugFactory.dlclose] at hl
    cases hpath : s.loaded path with
    | none =>
      rw [hpath] at hl
      exact ⟨l, hl, rfl⟩
    | some l' =>
      rw [hpath] at hl
      by_cases hq : q = path
      · subst hq
        dsimp only at hl
        rw [Function.update_self] at hl
        split_ifs at hl
        obtain rfl := Option.some.inj hl
        exact ⟨l', hpath, rfl⟩
      · exact ⟨l, (Function.update_of_ne hq ..).symm.trans hl, rfl⟩

/-- What a library registers when it is loaded lies in it. -/
theorem live_dlopen (hpath : s.loaded path = none) :
    (s.dlopen path library).Live (.library path s.next) := by
  refine ⟨⟨s.next, 1⟩, ?_, rfl⟩
  rw [PlugFactory.dlopen, hpath]
  exact Function.update_self ..

omit [DecidableEq π] [DecidableEq ν] in
theorem live_congr {s u : PlugFactory π ν} (h : u.loaded = s.loaded) :
    u.Live source ↔ s.Live source := by
  cases source with
  | program => exact Iff.rfl
  | library q load => rw [Live, Live, h]

theorem Sound.allLive_dlopen (h : Sound libraries s) (hlive : s.AllLive)
    (hlibrary : libraries path = some library) : (s.dlopen path library).AllLive := by
  intro n source hn
  rw [h.plugMap_dlopen hlibrary] at hn
  rcases Option.or_eq_some_iff.mp hn with hn | ⟨hnone, hn⟩
  · exact (hlive n source hn).dlopen
  · split_ifs at hn with hmem
    cases hn
    cases hpath : s.loaded path with
    | none => exact live_dlopen hpath
    | some l =>
      have hsome := h.names hpath hlibrary n hmem
      rw [hnone] at hsome
      cases hsome

/-- A library that stays leaves no factory behind. -/
theorem Sound.allLive_dlclose (h : Sound libraries s) (hlive : s.AllLive)
    (hlibrary : libraries path = some library) (hpath : s.loaded path = none)
    (hstays : library.unloads s.next = false) :
    ((s.dlopen path library).dlclose path library).AllLive := by
  intro n source hn
  rw [plugMap_dlclose] at hn
  refine (h.allLive_dlopen hlive hlibrary n source hn).dlclose fun l hl => ?_
  rw [loaded_dlopen, hpath] at hl
  obtain rfl := Option.some.inj hl
  exact hstays

/-- One that is as it was leaves none behind just when all its names have been registered before. -/
theorem Sound.allLive_dlclose_iff (h : Sound libraries s) (hlive : s.AllLive)
    (hlibrary : libraries path = some library)
    (hunloads : s.loaded path = none → library.unloads s.next = true) :
    ((s.dlopen path library).dlclose path library).AllLive ↔
      ∀ n ∈ library.names, (s.plugMap n).isSome := by
  have hcongr : ∀ source,
      ((s.dlopen path library).dlclose path library).Live source ↔ s.Live source :=
    fun source => live_congr (h.loaded_dlclose hlibrary hunloads)
  have hplug : ∀ n, ((s.dlopen path library).dlclose path library).plugMap n =
      (s.plugMap n).or (if n ∈ library.names then some (.library path s.next) else none) := by
    intro n
    rw [plugMap_dlclose, h.plugMap_dlopen hlibrary]
  constructor
  · intro hall n hmem
    by_contra hnone
    have hnew := hplug n
    rw [Option.not_isSome_iff_eq_none.mp hnone, Option.none_or, if_pos hmem] at hnew
    obtain ⟨l, hl, hload⟩ := (hcongr _).mp (hall n _ hnew)
    exact absurd hload (h.load_lt hl).ne
  · intro hall n source hn
    rw [hplug] at hn
    rw [hcongr]
    rcases Option.or_eq_some_iff.mp hn with hn | ⟨hnone, hn⟩
    · exact hlive n source hn
    · split_ifs at hn with hmem
      have hsome := hall n hmem
      rw [hnone] at hsome
      cases hsome

/-- **One call** keeps all factories live just when it is careful. -/
theorem Sound.allLive_act_iff (h : Sound libraries s) (hlive : s.AllLive) (a : Act π ν) :
    (s.act libraries a).AllLive ↔ Careful libraries s a := by
  cases a with
  | registerPlugFactory name =>
    refine iff_of_true (fun n source hn => ?_) trivial
    have hn := (registerPlugFactory_apply s.plugMap name .program n).symm.trans hn
    rcases Option.or_eq_some_iff.mp hn with hn | ⟨-, hn⟩
    · exact hlive n source hn
    · split_ifs at hn
      cases hn
      trivial
  | loadDriver path name =>
    rw [PlugFactory.act]
    cases hlibrary : libraries path with
    | none =>
      rw [loadDriver, hlibrary]
      exact iff_of_true hlive fun library hsome => nomatch hlibrary.symm.trans hsome
    | some library =>
      have hopen := h.plugMap_dlopen hlibrary name
      rcases loadDriver_cases (s := s) hlibrary name with
        ⟨source, hsymbol, hname, heq⟩ | ⟨hfail, heq⟩
      · rw [heq]
        refine iff_of_true (h.allLive_dlopen hlive hlibrary) fun lib hlib _ hvain => ?_
        obtain rfl := Option.some.inj (hlibrary.symm.trans hlib)
        obtain ⟨hnot, hnone⟩ := hvain hsymbol
        rw [hopen, hnone, if_neg hnot] at hname
        cases hname
      · rw [heq]
        -- the symbol has not been found, or the name has not: the call is in vain
        have hvain : library.symbol = true → name ∉ library.names ∧ s.plugMap name = none := by
          intro hsymbol
          rcases hfail with hno | hname
          · exact absurd (hsymbol.symm.trans hno) Bool.noConfusion
          · rw [hopen] at hname
            obtain ⟨hnone, hif⟩ := Option.or_eq_none_iff.mp hname
            refine ⟨fun hmem => ?_, hnone⟩
            rw [if_pos hmem] at hif
            cases hif
        by_cases hstays : s.loaded path = none ∧ library.unloads s.next = false
        · refine iff_of_true (h.allLive_dlclose hlive hlibrary hstays.1 hstays.2) ?_
          intro lib hlib _ _ hunloads
          obtain rfl := Option.some.inj (hlibrary.symm.trans hlib)
          exact absurd (hunloads.symm.trans hstays.2) Bool.noConfusion
        · have hunloads : s.loaded path = none → library.unloads s.next = true :=
            fun hpath => Bool.not_eq_false _ ▸ fun hload => hstays ⟨hpath, hload⟩
          rw [h.allLive_dlclose_iff hlive hlibrary hunloads]
          refine ⟨fun hall lib hlib _ _ _ => ?_, fun hcareful n hmem => ?_⟩
          · obtain rfl := Option.some.inj (hlibrary.symm.trans hlib)
            exact hall
          · cases hpath : s.loaded path with
            | none => exact hcareful library hlibrary hpath hvain (hunloads hpath) n hmem
            | some l => exact h.names hpath hlibrary n hmem

/-- A load has its own number. -/
theorem Sound.live_of_dlopen (h : Sound libraries s) (hn : s.plugMap n = some source)
    (hlive : (s.dlopen path library).Live source) : s.Live source := by
  cases source with
  | program => trivial
  | library q load =>
    obtain ⟨l, hl, rfl⟩ := hlive
    have hlt := h.source_lt hn
    rw [PlugFactory.dlopen] at hl
    cases hpath : s.loaded path with
    | some l' =>
      rw [hpath] at hl
      rcases PartialMap.update_eq_some.mp hl with ⟨rfl, rfl⟩ | ⟨-, hl⟩
      · exact ⟨l', hpath, rfl⟩
      · exact ⟨l, hl, rfl⟩
    | none =>
      rw [hpath] at hl
      rcases PartialMap.update_eq_some.mp hl with ⟨-, rfl⟩ | ⟨-, hl⟩
      · exact absurd hlt (lt_irrefl _)
      · exact ⟨l, hl, rfl⟩

/-- **What is left behind stays so.** -/
theorem Sound.dead_act (h : Sound libraries s) (hn : s.plugMap n = some source)
    (hdead : ¬s.Live source) (a : Act π ν) :
    (s.act libraries a).plugMap n = some source ∧ ¬(s.act libraries a).Live source := by
  cases a with
  | registerPlugFactory name =>
    refine ⟨(registerPlugFactory_apply ..).trans ?_, fun hlive => hdead ((live_congr rfl).mp hlive)⟩
    rw [hn, Option.some_or]
  | loadDriver path name =>
    rw [PlugFactory.act]
    cases hlibrary : libraries path with
    | none =>
      rw [loadDriver, hlibrary]
      exact ⟨hn, hdead⟩
    | some library =>
      rw [h.plugMap_loadDriver hlibrary, hn, Option.some_or]
      refine ⟨rfl, fun hlive => hdead ?_⟩
      rcases loadDriver_cases (s := s) hlibrary name with ⟨_, -, -, heq⟩ | ⟨-, heq⟩
      · rw [heq] at hlive
        exact h.live_of_dlopen hn hlive
      · rw [heq] at hlive
        exact h.live_of_dlopen hn hlive.of_dlclose

theorem Sound.dead_foldl (h : Sound libraries s) (hn : s.plugMap n = some source)
    (hdead : ¬s.Live source) (acts : List (Act π ν)) :
    (acts.foldl (PlugFactory.act libraries) s).plugMap n = some source ∧
      ¬(acts.foldl (PlugFactory.act libraries) s).Live source := by
  induction acts generalizing s with
  | nil => exact ⟨hn, hdead⟩
  | cons a acts ih =>
    obtain ⟨hn, hdead⟩ := h.dead_act hn hdead a
    exact ih (h.act a) hn hdead

/-- **No driver is called that has been unloaded**: throughout any run, all factories lie in what is
loaded, just when no call has loaded a library in vain that was unloaded again and had registered a
name of its own. A factory that has been left behind is called ever after: each later `LoadDriver`
of its name calls it, or nothing. -/
theorem allLive_iff (libraries : π → Option (PlugLibrary ν)) (acts : List (Act π ν)) :
    ((∀ s ∈ Lts.states (act libraries) init acts, s.AllLive) ↔
      ∀ p ∈ Lts.steps (act libraries) init acts, Careful libraries p.1 p.2) ∧
    ∀ s ∈ Lts.states (act libraries) init acts, ∀ n source, s.plugMap n = some source →
      ¬s.Live source → ∀ (later : List (Act π ν)) (path : π),
        let u := (later.foldl (act libraries) s).loadDriver libraries path n
        ¬u.2.Live source ∧ ∀ source', u.1 = some source' → source' = source := by
  have hsound : ∀ s ∈ Lts.states (act libraries) init acts, Sound libraries s :=
    Lts.forall_states (fun s a h => h.act a) acts sound_init
  constructor
  · have hstep : ∀ (s : PlugFactory π ν) (a : Act π ν), Sound libraries s ∧ s.AllLive →
        (Sound libraries (s.act libraries a) ∧ (s.act libraries a).AllLive ↔
          Careful libraries s a) := by
      intro s a hs
      rw [and_iff_right (hs.1.act a)]
      exact hs.1.allLive_act_iff hs.2 a
    rw [← Lts.states_iff_steps hstep acts ⟨sound_init, nofun⟩]
    exact ⟨fun hall s hs => ⟨hsound s hs, hall s hs⟩, fun hall s hs => (hall s hs).2⟩
  · intro s hs n source hn hdead later path
    obtain ⟨-, hdead'⟩ := (hsound s hs).dead_foldl hn hdead (later ++ [Act.loadDriver path n])
    obtain ⟨hn', -⟩ := (hsound s hs).dead_foldl hn hdead later
    rw [List.foldl_concat] at hdead'
    refine ⟨hdead', fun source' hcall => ?_⟩
    have hlater : Sound libraries (later.foldl (act libraries) s) :=
      List.foldlRecOn later (act libraries) (hsound s hs) fun s h a _ => h.act a
    cases hlibrary : libraries path with
    | none =>
      rw [loadDriver, hlibrary] at hcall
      cases hcall
    | some library =>
      rcases loadDriver_cases hlibrary n with ⟨_, -, hname, heq⟩ | ⟨-, heq⟩
      · rw [heq] at hcall
        rw [hlater.plugMap_dlopen hlibrary, hn', Option.some_or] at hname
        exact Option.some.inj (hcall.symm.trans hname.symm)
      · rw [heq] at hcall
        cases hcall

end PlugFactory

end MToolkit

import Mathlib.Data.List.Chain
import Mathlib.Logic.Relation
import Mathlib.Tactic

/-!
# Doubly linked rings in a heap

Cells with a link to the next and one to the previous cell, on an explicit heap
(`LinkedRing.Heap`). A program is stuck, that is has no result, as soon as it reads or writes a
cell that is not allocated, allocates one that is, or frees one that is not
(`LinkedRing.Prog`).

The cells of a ring are a list of addresses behind the head (`LinkedRing.Ring`): consecutive
ones are linked both ways, and the last leads back to the head. Rewiring a stretch of it leaves
a ring (`LinkedRing.Ring.splice`), which covers the insertion of a cell
(`LinkedRing.Ring.insert`) and the removal of one (`LinkedRing.Ring.remove`). From the head
every cell of the ring is reached, and no other (`LinkedRing.Ring.reach_iff`).
-/

namespace LinkedRing

/-! ### The heap -/

/-- The address of a cell. -/
abbrev Addr := ℕ

/-- A cell, with a value unless it is bare. -/
structure Cell (α : Type) where
  next : Addr
  prev : Addr
  data : Option α

/-- The cells that are allocated. -/
abbrev Heap (α : Type) := Addr → Option (Cell α)

variable {α β γ : Type}

/-- Where the next link of a cell leads. -/
def nextOf (h : Heap α) (a : Addr) : Option Addr := (h a).map Cell.next

/-- Where the previous link of a cell leads. -/
def prevOf (h : Heap α) (a : Addr) : Option Addr := (h a).map Cell.prev

/-- The value of a cell. -/
def dataOf (h : Heap α) (a : Addr) : Option α := (h a).bind Cell.data

/-- The heap with one cell changed, if it is allocated. -/
def modify (h : Heap α) (a : Addr) (f : Cell α → Cell α) : Heap α :=
  Function.update h a ((h a).map f)

/-- The heap with another next link in one cell. -/
def withNext (h : Heap α) (a b : Addr) : Heap α := modify h a fun c => { c with next := b }

/-- The heap with another previous link in one cell. -/
def withPrev (h : Heap α) (a b : Addr) : Heap α := modify h a fun c => { c with prev := b }

/-- The heap with another value in one cell. -/
def withData (h : Heap α) (a : Addr) (v : α) : Heap α :=
  modify h a fun c => { c with data := some v }

/-- The heap with a cell that is allocated, or freed. -/
def withCell (h : Heap α) (a : Addr) (c : Option (Cell α)) : Heap α := Function.update h a c

/-! ### Programs -/

/-- A program that works on the heap. -/
abbrev Prog (α β : Type) := StateT (Heap α) Option β

/-- Read the next link. -/
def getNext (a : Addr) : Prog α Addr := fun h => (nextOf h a).map fun b => (b, h)

/-- Read the previous link. -/
def getPrev (a : Addr) : Prog α Addr := fun h => (prevOf h a).map fun b => (b, h)

/-- Read the value. -/
def getData (a : Addr) : Prog α α := fun h => (dataOf h a).map fun v => (v, h)

/-- Write the next link. -/
def setNext (a b : Addr) : Prog α Unit := fun h => (h a).map fun _ => ((), withNext h a b)

/-- Write the previous link. -/
def setPrev (a b : Addr) : Prog α Unit := fun h => (h a).map fun _ => ((), withPrev h a b)

/-- Write the value of a cell that is not bare. -/
def setData (a : Addr) (v : α) : Prog α Unit := fun h =>
  (dataOf h a).map fun _ => ((), withData h a v)

/-- Allocate a cell at an address that is free. -/
def new (a : Addr) (c : Cell α) : Prog α Unit := fun h =>
  if (h a).isSome then none else some ((), withCell h a (some c))

/-- Free a cell. -/
def delete (a : Addr) : Prog α Unit := fun h => (h a).map fun _ => ((), withCell h a none)

section Run

variable {h h' : Heap α} {a b x : Addr} {v : α} {c : Cell α}

/-- **A step of a program**, and the rest of it. -/
theorem bind_eq {p : Prog α β} {q : β → Prog α γ} {r : β} (hp : p h = some (r, h')) :
    (p >>= q) h = q r h' := by
  change (p h >>= fun s => q s.1 s.2) = q r h'
  rw [hp]
  rfl

/-- A program has one result. -/
theorem result_unique {p : Prog α β} {r r' : β} {h₁ h₂ : Heap α}
    (hp : p h = some (r, h₁)) (hp' : p h = some (r', h₂)) : r = r' ∧ h₁ = h₂ :=
  Prod.mk.injEq .. ▸ Option.some_injective _ (hp.symm.trans hp')

theorem getNext_eq (hb : nextOf h a = some b) : getNext a h = some (b, h) := by
  rw [getNext, hb]
  rfl

theorem getPrev_eq (hb : prevOf h a = some b) : getPrev a h = some (b, h) := by
  rw [getPrev, hb]
  rfl

theorem getData_eq (hv : dataOf h a = some v) : getData a h = some (v, h) := by
  rw [getData, hv]
  rfl

theorem isSome_of_nextOf (hb : nextOf h a = some b) : (h a).isSome := by
  obtain ⟨c, hc, -⟩ := Option.map_eq_some_iff.1 hb
  exact Option.isSome_of_eq_some hc

theorem isSome_of_dataOf (hv : dataOf h a = some v) : (h a).isSome := by
  obtain ⟨c, hc, -⟩ := Option.bind_eq_some_iff.1 hv
  exact Option.isSome_of_eq_some hc

theorem setNext_eq (ha : (h a).isSome) : setNext a x h = some ((), withNext h a x) := by
  obtain ⟨c, hc⟩ := Option.isSome_iff_exists.1 ha
  rw [setNext, hc]
  rfl

theorem setPrev_eq (ha : (h a).isSome) : setPrev a x h = some ((), withPrev h a x) := by
  obtain ⟨c, hc⟩ := Option.isSome_iff_exists.1 ha
  rw [setPrev, hc]
  rfl

theorem setData_eq {w : α} (hw : dataOf h a = some w) :
    setData a v h = some ((), withData h a v) := by
  rw [setData, hw]
  rfl

theorem new_eq (ha : h a = none) : new a c h = some ((), withCell h a (some c)) :=
  if_neg (by simp [ha])

theorem delete_eq (ha : (h a).isSome) : delete a h = some ((), withCell h a none) := by
  obtain ⟨c, hc⟩ := Option.isSome_iff_exists.1 ha
  rw [delete, hc]
  rfl

/-! ### Loops

A loop is its body, which goes on with another state or has the result. It runs out of fuel, or
it has ended (`LinkedRing.Ends`); with more fuel it ends in the same way. -/

/-- A loop, for as many rounds as there is fuel. -/
def loop {σ : Type} (body : σ → Prog α (σ ⊕ β)) : ℕ → σ → Prog α β
  | 0, _ => failure
  | fuel + 1, s => do
    match ← body s with
    | .inl s => loop body fuel s
    | .inr r => return r

/-- **The program ends**, with enough fuel. -/
def Ends (p : ℕ → Prog α β) (h : Heap α) (r : β) (h' : Heap α) : Prop :=
  ∃ fuel, p fuel h = some (r, h')

section Loop

variable {σ : Type} {body : σ → Prog α (σ ⊕ β)} {s s' : σ} {r r' : β} {h₁ h₂ : Heap α}

theorem loop_next (hbody : body s h = some (.inl s', h')) (fuel : ℕ) :
    loop body (fuel + 1) s h = loop body fuel s' h' := by
  rw [loop, bind_eq hbody]

theorem loop_done (hbody : body s h = some (.inr r, h')) (fuel : ℕ) :
    loop body (fuel + 1) s h = some (r, h') := by
  rw [loop, bind_eq hbody]
  rfl

theorem Ends.next (hbody : body s h = some (.inl s', h'))
    (hends : Ends (fun fuel => loop body fuel s') h' r h₁) :
    Ends (fun fuel => loop body fuel s) h r h₁ := by
  obtain ⟨fuel, hends⟩ := hends
  exact ⟨fuel + 1, (loop_next hbody fuel).trans hends⟩

theorem Ends.done (hbody : body s h = some (.inr r, h')) :
    Ends (fun fuel => loop body fuel s) h r h' :=
  ⟨1, loop_done hbody 0⟩

/-- What comes before a loop leaves its ends as they are. -/
theorem ends_bind {b : γ} {p : Prog α γ} {q : ℕ → γ → Prog α β} (hp : p h = some (b, h')) :
    Ends (fun fuel => p >>= q fuel) h r h₁ ↔ Ends (fun fuel => q fuel b) h' r h₁ := by
  simp only [Ends, bind_eq hp]

theorem loop_zero : loop body 0 s h = none := rfl

theorem loop_stuck (hbody : body s h = none) (fuel : ℕ) : loop body (fuel + 1) s h = none := by
  rw [loop]
  change (body s h >>= _) = none
  rw [hbody]
  rfl

theorem loop_unique {fuel fuel' : ℕ} (hends : loop body fuel s h = some (r, h₁))
    (hends' : loop body fuel' s h = some (r', h₂)) : r = r' ∧ h₁ = h₂ := by
  induction fuel generalizing s h fuel' with
  | zero => exact absurd hends (by simp [loop_zero])
  | succ fuel ih =>
    rcases fuel' with _ | fuel'
    · exact absurd hends' (by simp [loop_zero])
    rcases hbody : body s h with _ | ⟨s' | b, h'⟩
    · exact absurd hends (by simp [loop_stuck hbody])
    · rw [loop_next hbody] at hends hends'
      exact ih hends hends'
    · rw [loop_done hbody] at hends hends'
      exact Prod.mk.injEq .. ▸ Option.some_injective _ (hends.symm.trans hends')

/-- **A loop ends in one way.** -/
theorem Ends.unique (hends : Ends (fun fuel => loop body fuel s) h r h₁)
    (hends' : Ends (fun fuel => loop body fuel s) h r' h₂) : r = r' ∧ h₁ = h₂ := by
  obtain ⟨fuel, hends⟩ := hends
  obtain ⟨fuel', hends'⟩ := hends'
  exact loop_unique hends hends'

end Loop

/-! ### What a step leaves -/

/-- What is read of a cell and left alone by a change of it can be read afterwards. -/
theorem modify_frame {f : Cell α → Cell α} (read : Option (Cell α) → γ)
    (hread : ∀ o, read (o.map f) = read o) : read (modify h a f x) = read (h x) := by
  by_cases hx : x = a
  · subst hx
    rw [modify, Function.update_self, hread]
  · rw [modify, Function.update_of_ne hx]

theorem modify_of_ne {f : Cell α → Cell α} (hx : x ≠ a) : modify h a f x = h x :=
  Function.update_of_ne hx ..

/-- Changes of different cells, or of different parts of one, can change places. -/
theorem modify_comm {f g : Cell α → Cell α} (hfg : a = b → ∀ c, g (f c) = f (g c)) :
    modify (modify h a f) b g = modify (modify h b g) a f := by
  by_cases hab : a = b
  · subst hab
    simp [modify, Function.comp_def, hfg rfl]
  · rw [modify, modify_of_ne (Ne.symm hab), modify, modify, modify_of_ne hab]
    exact Function.update_comm hab ..

theorem withNext_withPrev {d : Addr} :
    withNext (withPrev h a b) x d = withPrev (withNext h x d) a b :=
  modify_comm fun _ _ => rfl

theorem withNext_comm {d : Addr} (hne : a ≠ x) :
    withNext (withNext h a b) x d = withNext (withNext h x d) a b :=
  modify_comm fun hax => absurd hax hne

theorem withPrev_comm {d : Addr} (hne : a ≠ x) :
    withPrev (withPrev h a b) x d = withPrev (withPrev h x d) a b :=
  modify_comm fun hax => absurd hax hne

theorem withNext_of_ne (hx : x ≠ a) : withNext h a b x = h x := modify_of_ne hx

theorem withPrev_of_ne (hx : x ≠ a) : withPrev h a b x = h x := modify_of_ne hx

theorem withData_of_ne (hx : x ≠ a) : withData h a v x = h x := modify_of_ne hx

@[simp] theorem nextOf_withPrev : nextOf (withPrev h a b) x = nextOf h x :=
  modify_frame (Option.map Cell.next) (by rintro (_ | c) <;> rfl)

@[simp] theorem nextOf_withData : nextOf (withData h a v) x = nextOf h x :=
  modify_frame (Option.map Cell.next) (by rintro (_ | c) <;> rfl)

@[simp] theorem prevOf_withNext : prevOf (withNext h a b) x = prevOf h x :=
  modify_frame (Option.map Cell.prev) (by rintro (_ | c) <;> rfl)

@[simp] theorem prevOf_withData : prevOf (withData h a v) x = prevOf h x :=
  modify_frame (Option.map Cell.prev) (by rintro (_ | c) <;> rfl)

@[simp] theorem dataOf_withNext : dataOf (withNext h a b) x = dataOf h x :=
  modify_frame (fun o => o.bind Cell.data) (by rintro (_ | c) <;> rfl)

@[simp] theorem dataOf_withPrev : dataOf (withPrev h a b) x = dataOf h x :=
  modify_frame (fun o => o.bind Cell.data) (by rintro (_ | c) <;> rfl)

@[simp] theorem isSome_withNext : (withNext h a b x).isSome = (h x).isSome :=
  modify_frame Option.isSome (by rintro (_ | c) <;> rfl)

@[simp] theorem isSome_withPrev : (withPrev h a b x).isSome = (h x).isSome :=
  modify_frame Option.isSome (by rintro (_ | c) <;> rfl)

@[simp] theorem isSome_withData : (withData h a v x).isSome = (h x).isSome :=
  modify_frame Option.isSome (by rintro (_ | c) <;> rfl)

theorem nextOf_withNext {y : Addr} (ha : (h a).isSome) :
    nextOf (withNext h a y) x = if x = a then some y else nextOf h x := by
  obtain ⟨c, hc⟩ := Option.isSome_iff_exists.1 ha
  by_cases hx : x = a
  · subst hx
    simp [nextOf, withNext, modify, hc]
  · simp [nextOf, withNext, modify, hx]

theorem prevOf_withPrev {y : Addr} (ha : (h a).isSome) :
    prevOf (withPrev h a y) x = if x = a then some y else prevOf h x := by
  obtain ⟨c, hc⟩ := Option.isSome_iff_exists.1 ha
  by_cases hx : x = a
  · subst hx
    simp [prevOf, withPrev, modify, hc]
  · simp [prevOf, withPrev, modify, hx]

theorem dataOf_withData {w : α} (hw : dataOf h a = some w) :
    dataOf (withData h a v) x = if x = a then some v else dataOf h x := by
  obtain ⟨c, hc, -⟩ := Option.bind_eq_some_iff.1 hw
  by_cases hx : x = a
  · subst hx
    simp [dataOf, withData, modify, hc]
  · simp [dataOf, withData, modify, hx]

@[simp] theorem withCell_apply {o : Option (Cell α)} :
    withCell h a o x = if x = a then o else h x :=
  Function.update_apply h a o x

theorem nextOf_withCell {o : Option (Cell α)} :
    nextOf (withCell h a o) x = if x = a then o.map Cell.next else nextOf h x := by
  rw [nextOf, withCell_apply, apply_ite (Option.map Cell.next)]
  rfl

theorem prevOf_withCell {o : Option (Cell α)} :
    prevOf (withCell h a o) x = if x = a then o.map Cell.prev else prevOf h x := by
  rw [prevOf, withCell_apply, apply_ite (Option.map Cell.prev)]
  rfl

theorem dataOf_withCell {o : Option (Cell α)} :
    dataOf (withCell h a o) x = if x = a then o.bind Cell.data else dataOf h x := by
  rw [dataOf, withCell_apply, apply_ite fun o : Option (Cell α) => o.bind Cell.data]
  rfl

end Run

/-! ### Rings -/

/-- The first cell leads to the second, and the second back to the first. -/
def Linked (h : Heap α) (a b : Addr) : Prop := nextOf h a = some b ∧ prevOf h b = some a

/-- **A ring**: the head and the cells behind it, one after the other. -/
structure Ring (h : Heap α) (head : Addr) (l : List Addr) : Prop where
  nodup : (head :: l).Nodup
  linked : (head :: l ++ [head]).IsChain (Linked h)

section Ring

variable {h h' : Heap α} {head a b e : Addr} {l r mid mid' : List Addr}

/-- The cells up to some place, from the last of them. -/
theorem exists_cons_eq_append (head : Addr) (l : List Addr) :
    ∃ front, head :: l = front ++ [l.getLastD head] := by
  refine ⟨(head :: l).dropLast, ?_⟩
  rw [← List.getLast_eq_getLastD (List.cons_ne_nil head l)]
  exact (List.dropLast_append_getLast _).symm

/-- The cells from some place on, from the first of them. -/
theorem exists_append_eq_cons (head : Addr) (r : List Addr) :
    ∃ rest, r ++ [head] = r.headD head :: rest := by
  rcases r with _ | ⟨b, r⟩
  · exact ⟨[], rfl⟩
  · exact ⟨r ++ [head], rfl⟩

theorem getLastD_mem (head : Addr) (l : List Addr) : l.getLastD head ∈ head :: l := by
  obtain ⟨front, hfront⟩ := exists_cons_eq_append head l
  exact hfront ▸ List.mem_append_right _ (List.mem_singleton_self _)

theorem headD_mem (head : Addr) (r : List Addr) : r.headD head ∈ head :: r := by
  rcases r with _ | ⟨b, r⟩
  · exact List.mem_cons_self
  · exact List.mem_cons_of_mem head List.mem_cons_self

/-- Other links along a list, where the old ones are kept. -/
theorem isChain_linked_congr {l : List Addr} (hl : l.IsChain (Linked h))
    (hnext : ∀ x ∈ l.dropLast, nextOf h' x = nextOf h x)
    (hprev : ∀ x ∈ l.tail, prevOf h' x = prevOf h x) : l.IsChain (Linked h') := by
  rw [List.isChain_iff_forall_rel_of_append_cons_cons] at hl ⊢
  intro a b front rest heq
  obtain ⟨hab, hba⟩ := hl heq
  refine ⟨(hnext a ?_).trans hab, (hprev b ?_).trans hba⟩
  · rw [heq]
    simp [List.dropLast_append_of_ne_nil]
  · rw [heq]
    rcases front with _ | ⟨c, front⟩ <;> simp

/-- The cells around a stretch of a ring come once. -/
theorem Ring.nodup_around (hring : Ring h head (l ++ mid ++ r)) : (head :: l ++ r).Nodup :=
  hring.nodup.sublist ((List.sublist_append_left (head :: l) mid).append (List.Sublist.refl r))

/-- The links **before a stretch of a ring** are kept, when at most the next link of the last cell
and the previous one of the first behind the stretch are others. -/
theorem Ring.isChain_before (hring : Ring h head (l ++ mid ++ r))
    (hnext : ∀ x ∈ head :: (l ++ r), x ≠ l.getLastD head → nextOf h' x = nextOf h x)
    (hprev : ∀ x ∈ head :: (l ++ r), x ≠ r.headD head → prevOf h' x = prevOf h x) :
    (head :: l).IsChain (Linked h') := by
  have hold := hring.nodup_around
  have hall := hring.linked
  rw [show head :: (l ++ mid ++ r) ++ [head] = (head :: l) ++ (mid ++ r ++ [head]) by simp] at hall
  refine isChain_linked_congr hall.left_of_append (fun x hx => ?_) fun x hx => ?_
  · -- the last cell before the stretch comes once
    obtain ⟨front, hfront⟩ := exists_cons_eq_append head l
    refine hnext x (List.mem_append_left r (List.mem_of_mem_dropLast hx)) ?_
    rintro rfl
    have hcells := (List.nodup_append.1 hold).1
    rw [hfront] at hcells hx
    rw [List.dropLast_concat] at hx
    exact (List.nodup_append.1 hcells).2.2 _ hx _ (List.mem_singleton_self _) rfl
  · rw [List.tail_cons] at hx
    have hx' : x ∈ head :: l := List.mem_cons_of_mem head hx
    refine hprev x (List.mem_append_left r hx') ?_
    rintro rfl
    rcases List.mem_cons.1 (headD_mem head r) with hn | hn
    · rw [hn] at hx
      exact (List.nodup_cons.1 hold).1 (List.mem_append_left r hx)
    · exact (List.nodup_append.1 hold).2.2 _ hx' _ hn rfl

/-- So are those **behind the stretch**. -/
theorem Ring.isChain_behind (hring : Ring h head (l ++ mid ++ r))
    (hnext : ∀ x ∈ head :: (l ++ r), x ≠ l.getLastD head → nextOf h' x = nextOf h x)
    (hprev : ∀ x ∈ head :: (l ++ r), x ≠ r.headD head → prevOf h' x = prevOf h x) :
    (r ++ [head]).IsChain (Linked h') := by
  have hold := hring.nodup_around
  have hall := hring.linked
  rw [show head :: (l ++ mid ++ r) ++ [head] = (head :: (l ++ mid)) ++ (r ++ [head]) by simp]
    at hall
  refine isChain_linked_congr hall.right_of_append (fun x hx => ?_) fun x hx => ?_
  · rw [List.dropLast_concat] at hx
    refine hnext x (List.mem_append_right (head :: l) hx) ?_
    rintro rfl
    exact (List.nodup_append.1 hold).2.2 _ (getLastD_mem head l) _ hx rfl
  · -- nor does the first cell behind it come again
    obtain ⟨rest, hrest⟩ := exists_append_eq_cons head r
    have hback : (r ++ [head]).Nodup := by
      rw [List.nodup_append_comm]
      exact hold.sublist (List.cons_sublist_cons.2 (List.sublist_append_right l r))
    refine hprev x ?_ ?_
    · rcases List.mem_append.1 (List.mem_of_mem_tail hx) with hx | hx
      · exact List.mem_append_right (head :: l) hx
      · rw [List.mem_singleton.1 hx]
        exact List.mem_cons_self
    · rintro rfl
      rw [hrest] at hback hx
      exact (List.nodup_cons.1 hback).1 hx

/-- **Rewiring a stretch of a ring.** The cells before the stretch and behind it keep their
links, but for the next link of the last before it and the previous link of the first behind it;
and these and the cells of the new stretch are linked. -/
theorem Ring.splice (hring : Ring h head (l ++ mid ++ r))
    (hnodup : (head :: (l ++ mid' ++ r)).Nodup)
    (hnext : ∀ x ∈ head :: (l ++ r), x ≠ l.getLastD head → nextOf h' x = nextOf h x)
    (hprev : ∀ x ∈ head :: (l ++ r), x ≠ r.headD head → prevOf h' x = prevOf h x)
    (hmid : (l.getLastD head :: mid' ++ [r.headD head]).IsChain (Linked h')) :
    Ring h' head (l ++ mid' ++ r) := by
  refine ⟨hnodup, ?_⟩
  have hbefore := hring.isChain_before hnext hprev
  have hbehind := hring.isChain_behind hnext hprev
  obtain ⟨front, hfront⟩ := exists_cons_eq_append head l
  obtain ⟨rest, hrest⟩ := exists_append_eq_cons head r
  have hsplit : head :: (l ++ mid' ++ r) ++ [head] =
      front ++ l.getLastD head :: (mid' ++ r.headD head :: rest) := by
    calc head :: (l ++ mid' ++ r) ++ [head] = (head :: l) ++ (mid' ++ (r ++ [head])) := by simp
      _ = (front ++ [l.getLastD head]) ++ (mid' ++ r.headD head :: rest) := by rw [hfront, hrest]
      _ = front ++ l.getLastD head :: (mid' ++ r.headD head :: rest) := by simp
  rw [hfront] at hbefore
  rw [hrest] at hbehind
  rw [hsplit, List.isChain_split, ← List.cons_append]
  exact ⟨hbefore, List.isChain_split.2 ⟨hmid, hbehind⟩⟩

/-- **At each place of a ring** the cell before it and the one behind it are linked. -/
theorem Ring.linked_at (hring : Ring h head (l ++ r)) :
    Linked h (l.getLastD head) (r.headD head) := by
  obtain ⟨front, hfront⟩ := exists_cons_eq_append head l
  obtain ⟨rest, hrest⟩ := exists_append_eq_cons head r
  have hall : head :: (l ++ r) ++ [head] =
      front ++ l.getLastD head :: r.headD head :: rest := by
    calc head :: (l ++ r) ++ [head] = (head :: l) ++ (r ++ [head]) := by simp
      _ = (front ++ [l.getLastD head]) ++ (r.headD head :: rest) := by rw [hfront, hrest]
      _ = front ++ l.getLastD head :: r.headD head :: rest := by simp
  exact List.isChain_iff_forall_rel_of_append_cons_cons.1 hring.linked hall

theorem Ring.linked_prev (hring : Ring h head (l ++ e :: r)) : Linked h (l.getLastD head) e :=
  hring.linked_at

theorem Ring.linked_next (hring : Ring h head (l ++ e :: r)) : Linked h e (r.headD head) := by
  rw [List.append_cons] at hring
  simpa using hring.linked_at

/-- The first cell behind the head, and the last. -/
theorem Ring.nextOf_head (hring : Ring h head l) : nextOf h head = some (l.headD head) :=
  (Ring.linked_at (l := []) hring).1

theorem Ring.prevOf_head (hring : Ring h head l) : prevOf h head = some (l.getLastD head) := by
  rw [← List.append_nil l] at hring
  exact hring.linked_at.2

/-- The cells before and behind a place are cells of the ring. -/
theorem getLastD_mem_append (head : Addr) (l r : List Addr) :
    l.getLastD head ∈ head :: (l ++ r) :=
  List.mem_append_left r (getLastD_mem head l)

theorem headD_mem_append (head : Addr) (l r : List Addr) :
    r.headD head ∈ head :: (l ++ r) := by
  rcases List.mem_cons.1 (headD_mem head r) with hb | hb
  · rw [hb]
    exact List.mem_cons_self
  · exact List.mem_cons_of_mem head (List.mem_append_right l hb)

/-- A cell and the rest of the ring. -/
theorem nodup_middle (head e : Addr) (l r : List Addr) :
    (head :: (l ++ e :: r)).Nodup ↔
      e ∉ head :: (l ++ r) ∧ (head :: (l ++ r)).Nodup := by
  have hperm : (head :: (l ++ e :: r)).Perm (e :: head :: (l ++ r)) :=
    (List.perm_middle.cons head).trans (List.Perm.swap e head _)
  rw [hperm.nodup_iff, List.nodup_cons]

/-- **A cell is linked in** between two that follow one another. -/
theorem Ring.insert (hring : Ring h head (l ++ r)) (he : e ∉ head :: (l ++ r))
    (hnext : ∀ x, nextOf h' x = if x = e then some (r.headD head)
      else if x = l.getLastD head then some e else nextOf h x)
    (hprev : ∀ x, prevOf h' x = if x = e then some (l.getLastD head)
      else if x = r.headD head then some e else prevOf h x) : Ring h' head (l ++ e :: r) := by
  have hne : ∀ x ∈ head :: (l ++ r), x ≠ e := fun x hx hxe => he (hxe ▸ hx)
  have hp := hne _ (getLastD_mem_append head l r)
  have hn := hne _ (headD_mem_append head l r)
  have hold : Ring h head (l ++ [] ++ r) := by rwa [List.append_nil]
  rw [List.append_cons]
  refine hold.splice ?_ (fun x hx hxp => ?_) (fun x hx hxn => ?_) ?_
  · rw [← List.append_cons]
    exact (nodup_middle head e l r).2 ⟨he, hring.nodup⟩
  · rw [hnext, if_neg (hne x hx), if_neg hxp]
  · rw [hprev, if_neg (hne x hx), if_neg hxn]
  · refine List.isChain_cons_cons.2 ⟨⟨?_, ?_⟩, List.isChain_pair.2 ⟨?_, ?_⟩⟩
    · rw [hnext, if_neg hp, if_pos rfl]
    · rw [hprev, if_pos rfl]
    · rw [hnext, if_pos rfl]
    · rw [hprev, if_neg hn, if_pos rfl]

/-- **A cell is linked out**; its own links may be anything then. -/
theorem Ring.remove (hring : Ring h head (l ++ e :: r))
    (hnext : ∀ x ≠ e, nextOf h' x =
      if x = l.getLastD head then some (r.headD head) else nextOf h x)
    (hprev : ∀ x ≠ e, prevOf h' x =
      if x = r.headD head then some (l.getLastD head) else prevOf h x) :
    Ring h' head (l ++ r) := by
  obtain ⟨he, hnodup⟩ := (nodup_middle head e l r).1 hring.nodup
  have hne : ∀ x ∈ head :: (l ++ r), x ≠ e := fun x hx hxe => he (hxe ▸ hx)
  have hold : Ring h head (l ++ [e] ++ r) := by rwa [← List.append_cons]
  rw [← List.append_nil l] at hnodup ⊢
  refine hold.splice hnodup (fun x hx hxp => ?_) (fun x hx hxn => ?_) ?_
  · rw [hnext x (hne x hx), if_neg hxp]
  · rw [hprev x (hne x hx), if_neg hxn]
  · refine List.isChain_pair.2 ⟨?_, ?_⟩
    · rw [hnext _ (hne _ (getLastD_mem_append head l r)), if_pos rfl]
    · rw [hprev _ (hne _ (headD_mem_append head l r)), if_pos rfl]

/-! ### What can be reached -/

/-- Cells that can be reached by any links. -/
def Reach (h : Heap α) : Addr → Addr → Prop :=
  Relation.ReflTransGen fun a b => nextOf h a = some b ∨ prevOf h a = some b

/-- Every cell of a ring lies between two of them. -/
theorem Ring.links (hring : Ring h head l) (ha : a ∈ head :: l) :
    (∃ b ∈ head :: l, Linked h a b) ∧ ∃ b ∈ head :: l, Linked h b a := by
  rcases List.mem_cons.1 ha with rfl | ha
  · refine ⟨⟨l.headD a, headD_mem a l, ?_⟩, ⟨l.getLastD a, getLastD_mem a l, ?_⟩⟩
    · exact Ring.linked_at (l := []) hring
    · exact Ring.linked_at (r := []) (by rwa [List.append_nil])
  · obtain ⟨front, rest, rfl⟩ := List.append_of_mem ha
    refine ⟨⟨rest.headD head, ?_, hring.linked_next⟩,
      ⟨front.getLastD head, ?_, hring.linked_prev⟩⟩
    · rw [List.append_cons]
      exact headD_mem_append head (front ++ [a]) rest
    · exact getLastD_mem_append head front (a :: rest)

theorem Ring.isSome (hring : Ring h head l) (ha : a ∈ head :: l) : (h a).isSome := by
  obtain ⟨⟨b, -, hab⟩, -⟩ := hring.links ha
  exact isSome_of_nextOf hab.1

/-- A cell that is free is none of the ring. -/
theorem Ring.ne_of_free (hring : Ring h head l) (he : h e = none) (ha : a ∈ head :: l) :
    a ≠ e := by
  rintro rfl
  exact absurd (hring.isSome ha) (by simp [he])

/-- Along a list that is linked, each cell leads to the last one. -/
theorem follows_of_isChain {l : List Addr} (hl : (l ++ [b]).IsChain (Linked h)) :
    ∀ x ∈ l, Relation.ReflTransGen (fun a b => nextOf h a = some b) x b := by
  induction l with
  | nil => exact fun x hx => absurd hx List.not_mem_nil
  | cons a l ih =>
    have hhead : Relation.ReflTransGen (fun a b => nextOf h a = some b) a b := by
      rcases l with _ | ⟨c, l⟩
      · exact .single (List.isChain_pair.1 hl).1
      · obtain ⟨hac, hrest⟩ := List.isChain_cons_cons.1 hl
        exact .head hac.1 (ih hrest c List.mem_cons_self)
    intro x hx
    rcases List.mem_cons.1 hx with rfl | hx
    · exact hhead
    · exact ih (List.IsChain.of_cons hl) x hx

/-- Along a list that is linked, the first cell leads to each. -/
theorem reach_of_isChain {l : List Addr} (hl : (a :: l).IsChain (Linked h)) :
    ∀ x ∈ a :: l, Reach h a x := by
  induction l generalizing a with
  | nil =>
    intro x hx
    rw [List.mem_singleton.1 hx]
    exact .refl
  | cons b l ih =>
    obtain ⟨hab, hrest⟩ := List.isChain_cons_cons.1 hl
    intro x hx
    rcases List.mem_cons.1 hx with rfl | hx
    · exact .refl
    · exact .head (Or.inl hab.1) (ih hrest x hx)

/-- **From the head, the cells of the ring are reached**, and no other. -/
theorem Ring.reach_iff (hring : Ring h head l) : Reach h head a ↔ a ∈ head :: l := by
  constructor
  · intro hreach
    induction hreach with
    | refl => exact List.mem_cons_self
    | tail _ hstep ih =>
      obtain ⟨⟨c, hc, hnext⟩, ⟨d, hd, hprev⟩⟩ := hring.links ih
      rcases hstep with hstep | hstep
      · rwa [← Option.some_injective _ (hnext.1.symm.trans hstep)]
      · rwa [← Option.some_injective _ (hprev.2.symm.trans hstep)]
  · exact fun ha => reach_of_isChain hring.linked.left_of_append a ha

/-- **One ring, well formed**: what can be reached from the head is allocated, the previous links
undo the next ones and the other way round, and the next links lead back to the head. -/
structure Formed (h : Heap α) (head : Addr) : Prop where
  live : ∀ a, Reach h head a → (h a).isSome
  prev_next : ∀ a b, Reach h head a → nextOf h a = some b → prevOf h b = some a
  next_prev : ∀ a b, Reach h head a → prevOf h a = some b → nextOf h b = some a
  back : ∀ a, Reach h head a → Relation.ReflTransGen (fun a b => nextOf h a = some b) a head

theorem Ring.formed (hring : Ring h head l) : Formed h head where
  live a ha := hring.isSome (hring.reach_iff.1 ha)
  prev_next a b ha hab := by
    obtain ⟨⟨c, -, hac⟩, -⟩ := hring.links (hring.reach_iff.1 ha)
    rw [← Option.some_injective _ (hac.1.symm.trans hab)]
    exact hac.2
  next_prev a b ha hab := by
    obtain ⟨-, c, -, hca⟩ := hring.links (hring.reach_iff.1 ha)
    rw [← Option.some_injective _ (hca.2.symm.trans hab)]
    exact hca.1
  back a ha := follows_of_isChain hring.linked a (hring.reach_iff.1 ha)

end Ring

/-! ### Rings of values -/

/-- **A ring of values** on a heap that was `h₀` before there was one: the cells behind the head,
with what they hold. All the rest of the heap is as it was. -/
structure Stores (h₀ h : Heap α) (head : Addr) (cells : List (Addr × α)) : Prop where
  ring : Ring h head (cells.map Prod.fst)
  data : ∀ c ∈ cells, dataOf h c.1 = some c.2
  own : ∀ a ∈ head :: cells.map Prod.fst, h₀ a = none
  frame : ∀ a ∉ head :: cells.map Prod.fst, h a = h₀ a

/-- What linking in a cell with a value between two others does to a heap. -/
structure LinkedIn (h h' : Heap α) (p e n : Addr) (v : α) : Prop where
  next : ∀ x, nextOf h' x = if x = e then some n else if x = p then some e else nextOf h x
  prev : ∀ x, prevOf h' x = if x = e then some p else if x = n then some e else prevOf h x
  data : ∀ x, dataOf h' x = if x = e then some v else dataOf h x
  frame : ∀ x, x ≠ p → x ≠ e → x ≠ n → h' x = h x

/-- What linking out a cell from between two others and freeing it does to a heap. -/
structure LinkedOut (h h' : Heap α) (p e n : Addr) : Prop where
  next : ∀ x ≠ e, nextOf h' x = if x = p then some n else nextOf h x
  prev : ∀ x ≠ e, prevOf h' x = if x = n then some p else prevOf h x
  data : ∀ x ≠ e, dataOf h' x = dataOf h x
  free : h' e = none
  frame : ∀ x, x ≠ p → x ≠ e → x ≠ n → h' x = h x

/-- A cell that has been allocated for a value: all the rest of the heap is as it was. -/
structure Fresh (h g : Heap α) (e : Addr) (v : α) : Prop where
  free : h e = none
  data : dataOf g e = some v
  frame : ∀ x ≠ e, g x = h x

/-- A cell that can be linked in between two that follow one another. -/
structure Linkable (g : Heap α) (p e n : Addr) : Prop where
  before : (g p).isSome
  cell : (g e).isSome
  behind : (g n).isSome
  before_ne : p ≠ e
  behind_ne : n ≠ e
  next : nextOf g p = some n
  prev : prevOf g n = some p

/-- A cell between two others, that can be linked out. -/
structure Unlinkable (h : Heap α) (p e n : Addr) (v : α) : Prop where
  before : (h p).isSome
  cell : (h e).isSome
  behind : (h n).isSome
  before_ne : p ≠ e
  behind_ne : n ≠ e
  next : nextOf h e = some n
  prev : prevOf h e = some p
  data : dataOf h e = some v

section Links

variable {h g : Heap α} {p e n x : Addr} {v w : α} {c : Cell α}

theorem withCell_of_ne {o : Option (Cell α)} (hx : x ≠ e) : withCell h e o x = h x := by
  rw [withCell_apply, if_neg hx]

theorem dataOf_withCell_self (hc : c.data = some v) :
    dataOf (withCell h e (some c)) e = some v := by
  rw [dataOf_withCell, if_pos rfl]
  exact hc

theorem Fresh.withCell (he : h e = none) (hc : c.data = some v) :
    Fresh h (withCell h e (some c)) e v where
  free := he
  data := dataOf_withCell_self hc
  frame _ hx := withCell_of_ne hx

theorem Fresh.withData (hf : Fresh h g e w) (v : α) : Fresh h (withData g e v) e v where
  free := hf.free
  data := by rw [dataOf_withData hf.data, if_pos rfl]
  frame x hx := (withData_of_ne hx).trans (hf.frame x hx)

theorem Fresh.nextOf_eq (hf : Fresh h g e v) (hx : x ≠ e) : nextOf g x = nextOf h x :=
  congrArg (Option.map Cell.next) (hf.frame x hx)

theorem Fresh.prevOf_eq (hf : Fresh h g e v) (hx : x ≠ e) : prevOf g x = prevOf h x :=
  congrArg (Option.map Cell.prev) (hf.frame x hx)

theorem Fresh.dataOf_eq (hf : Fresh h g e v) (hx : x ≠ e) : dataOf g x = dataOf h x :=
  congrArg (fun o : Option (Cell α) => o.bind Cell.data) (hf.frame x hx)

/-- **The four links that are written** to link in a cell. -/
theorem Linkable.linkedIn (hl : Linkable g p e n) (hf : Fresh h g e v) :
    LinkedIn h (withPrev (withPrev (withNext (withNext g p e) e n) e p) n e) p e n v := by
  refine ⟨fun x => ?_, fun x => ?_, fun x => ?_, fun x hxp hxe hxn => ?_⟩
  · by_cases hx : x = e
    · simp [nextOf_withNext, hx, hl.cell]
    · simp [nextOf_withNext, hx, hl.before, hl.cell, hf.nextOf_eq hx]
  · by_cases hx : x = e
    · simp [prevOf_withPrev, hx, hl.cell, hl.behind, hl.behind_ne.symm]
    · simp [prevOf_withPrev, hx, hl.cell, hl.behind, hf.prevOf_eq hx]
  · by_cases hx : x = e
    · simp [hx, hf.data]
    · simp [hx, hf.dataOf_eq hx]
  · simp [withNext_of_ne, withPrev_of_ne, hxp, hxe, hxn, hf.frame]

/-- **The two links that are written** to link out a cell, which is freed then. -/
theorem Unlinkable.linkedOut (hu : Unlinkable h p e n v) :
    LinkedOut h (withCell (withPrev (withNext h p n) n p) e none) p e n := by
  refine ⟨fun x hx => ?_, fun x hx => ?_, fun x hx => ?_, ?_, fun x hxp hxe hxn => ?_⟩
  · simp [nextOf_withCell, nextOf_withNext, hx, hu.before]
  · simp [prevOf_withCell, prevOf_withPrev, hx, hu.behind]
  · simp [dataOf_withCell, hx]
  · simp
  · simp [withNext_of_ne, withPrev_of_ne, hxp, hxe, hxn]

end Links

section Stores

variable {h₀ h h' g : Heap α} {head e : Addr} {v : α} {l r : List (Addr × α)}

/-- The cells of a ring, with one apart. -/
theorem mem_addresses_middle (head e x : Addr) (v : α) (l r : List (Addr × α)) :
    x ∈ head :: (l ++ (e, v) :: r).map Prod.fst ↔
      x = e ∨ x ∈ head :: (l ++ r).map Prod.fst := by
  simp only [List.map_append, List.map_cons, List.mem_cons, List.mem_append]
  tauto

theorem mem_addresses {c : Addr × α} (head : Addr) (hc : c ∈ l) :
    c.1 ∈ head :: l.map Prod.fst :=
  List.mem_cons_of_mem head (List.mem_map_of_mem hc)

/-- **A ring with one value more.** -/
theorem Stores.insert (hs : Stores h₀ h head (l ++ r)) (he : h e = none)
    (hin : LinkedIn h h' ((l.map Prod.fst).getLastD head) e ((r.map Prod.fst).headD head) v) :
    Stores h₀ h' head (l ++ (e, v) :: r) := by
  have hring := hs.ring
  rw [List.map_append] at hring
  have hfree : e ∉ head :: (l.map Prod.fst ++ r.map Prod.fst) :=
    fun hmem => hring.ne_of_free he hmem rfl
  have hkeep : ∀ c ∈ l ++ r, dataOf h' c.1 = some c.2 := by
    intro c hc
    rw [hin.data, if_neg (hs.ring.ne_of_free he (mem_addresses head hc)), hs.data c hc]
  refine ⟨?_, ?_, ?_, ?_⟩
  · rw [List.map_append, List.map_cons]
    exact hring.insert hfree hin.next hin.prev
  · intro c hc
    rcases List.mem_append.1 hc with hc | hc
    · exact hkeep c (List.mem_append_left r hc)
    · rcases List.mem_cons.1 hc with rfl | hc
      · rw [hin.data, if_pos rfl]
      · exact hkeep c (List.mem_append_right l hc)
  · intro x hx
    rcases (mem_addresses_middle ..).1 hx with rfl | hx
    · rw [← hs.frame x ?_, he]
      rwa [List.map_append]
    · exact hs.own x hx
  · intro x hx
    rw [mem_addresses_middle, not_or] at hx
    rw [← hs.frame x hx.2]
    rw [List.map_append] at hx
    refine hin.frame x ?_ hx.1 ?_
    · rintro rfl
      exact hx.2 (getLastD_mem_append head _ _)
    · rintro rfl
      exact hx.2 (headD_mem_append head _ _)

/-- At each place of a ring a cell can be linked in. -/
theorem Stores.linkable (hs : Stores h₀ h head (l ++ r)) (hf : Fresh h g e v) :
    Linkable g ((l.map Prod.fst).getLastD head) e ((r.map Prod.fst).headD head) := by
  have hring := hs.ring
  rw [List.map_append] at hring
  have hp := getLastD_mem_append head (l.map Prod.fst) (r.map Prod.fst)
  have hn := headD_mem_append head (l.map Prod.fst) (r.map Prod.fst)
  have hpe := hring.ne_of_free hf.free hp
  have hne := hring.ne_of_free hf.free hn
  refine ⟨?_, isSome_of_dataOf hf.data, ?_, hpe, hne, ?_, ?_⟩
  · rw [hf.frame _ hpe]
    exact hring.isSome hp
  · rw [hf.frame _ hne]
    exact hring.isSome hn
  · rw [hf.nextOf_eq hpe]
    exact hring.linked_at.1
  · rw [hf.prevOf_eq hne]
    exact hring.linked_at.2

/-- Every cell of a ring can be linked out. -/
theorem Stores.unlinkable (hs : Stores h₀ h head (l ++ (e, v) :: r)) :
    Unlinkable h ((l.map Prod.fst).getLastD head) e ((r.map Prod.fst).headD head) v := by
  have hring := hs.ring
  rw [List.map_append, List.map_cons] at hring
  obtain ⟨he, -⟩ := (nodup_middle head e _ _).1 hring.nodup
  have hp := getLastD_mem_append head (l.map Prod.fst) (r.map Prod.fst)
  have hn := headD_mem_append head (l.map Prod.fst) (r.map Prod.fst)
  have hmem : ∀ x ∈ head :: (l.map Prod.fst ++ r.map Prod.fst), (h x).isSome := by
    intro x hx
    refine hs.ring.isSome ((mem_addresses_middle ..).2 (Or.inr ?_))
    rwa [List.map_append]
  have hdata : dataOf h e = some v := hs.data (e, v) (List.mem_append_right l List.mem_cons_self)
  exact ⟨hmem _ hp, isSome_of_dataOf hdata, hmem _ hn, fun hpe => he (hpe ▸ hp),
    fun hne => he (hne ▸ hn), hring.linked_next.1, hring.linked_prev.2, hdata⟩

/-- The head is no cell of a value. -/
theorem Stores.ne_head (hs : Stores h₀ h head (l ++ (e, v) :: r)) : e ≠ head := by
  rintro rfl
  refine (List.nodup_cons.1 hs.ring.nodup).1 ?_
  exact List.mem_map_of_mem (f := Prod.fst) (List.mem_append_right l List.mem_cons_self)

/-- **A ring with one value less.** -/
theorem Stores.remove (hs : Stores h₀ h head (l ++ (e, v) :: r))
    (hout : LinkedOut h h' ((l.map Prod.fst).getLastD head) e ((r.map Prod.fst).headD head)) :
    Stores h₀ h' head (l ++ r) := by
  have hring := hs.ring
  rw [List.map_append, List.map_cons] at hring
  obtain ⟨he, -⟩ := (nodup_middle head e _ _).1 hring.nodup
  rw [← List.map_append] at he
  refine ⟨?_, ?_, ?_, ?_⟩
  · rw [List.map_append]
    exact hring.remove hout.next hout.prev
  · intro c hc
    have hne : c.1 ≠ e := by
      rintro rfl
      exact he (mem_addresses head hc)
    rw [hout.data c.1 hne]
    refine hs.data c ?_
    rcases List.mem_append.1 hc with hc | hc
    · exact List.mem_append_left _ hc
    · exact List.mem_append_right l (List.mem_cons_of_mem _ hc)
  · exact fun x hx => hs.own x ((mem_addresses_middle ..).2 (Or.inr hx))
  · intro x hx
    by_cases hxe : x = e
    · subst hxe
      rw [hout.free, hs.own x ((mem_addresses_middle ..).2 (Or.inl rfl))]
    · rw [← hs.frame x (by rw [mem_addresses_middle, not_or]; exact ⟨hxe, hx⟩)]
      rw [List.map_append] at hx
      refine hout.frame x ?_ hxe ?_
      · rintro rfl
        exact hx (getLastD_mem_append head _ _)
      · rintro rfl
        exact hx (headD_mem_append head _ _)

/-- **A ring of no values**: the head, linked to itself. -/
theorem Stores.init (hhead : h₀ head = none) (hnext : nextOf h head = some head)
    (hprev : prevOf h head = some head) (hframe : ∀ a ≠ head, h a = h₀ a) :
    Stores h₀ h head ([] : List (Addr × α)) := by
  refine ⟨⟨List.nodup_singleton head, List.isChain_pair.2 ⟨hnext, hprev⟩⟩, ?_, ?_, ?_⟩
  · exact fun c hc => absurd hc List.not_mem_nil
  · intro a ha
    rwa [List.mem_singleton.1 ha]
  · exact fun a ha => hframe a (List.ne_of_not_mem_cons ha)

/-- A head is allocated and linked to itself. -/
theorem Stores.of_construct (hhead : h₀ head = none) (c : Cell α) :
    ∃ h, (do new head c; setPrev head head; setNext head head : Prog α Unit) h₀ = some ((), h) ∧
      Stores h₀ h head ([] : List (Addr × α)) := by
  have halloc : (withCell h₀ head (some c) head).isSome := by simp
  refine ⟨withNext (withPrev (withCell h₀ head (some c)) head head) head head, ?_,
    Stores.init hhead ?_ ?_ fun a ha => ?_⟩
  · rw [bind_eq (new_eq hhead), bind_eq (setPrev_eq halloc), setNext_eq (by simp)]
  · rw [nextOf_withNext (by simp), if_pos rfl]
  · rw [prevOf_withNext, prevOf_withPrev halloc, if_pos rfl]
  · rw [withNext_of_ne ha, withPrev_of_ne ha, withCell_of_ne ha]

/-- **The head of a ring of no values is freed**, and nothing is left of the ring. -/
theorem Stores.delete_head (hs : Stores h₀ h head ([] : List (Addr × α))) :
    delete head h = some ((), h₀) := by
  rw [delete_eq (hs.ring.isSome List.mem_cons_self)]
  refine congrArg (fun h => some ((), h)) (funext fun x => ?_)
  rw [withCell_apply]
  split
  · next hx => rw [hx, hs.own head List.mem_cons_self]
  · next hx => exact hs.frame x (by simpa using hx)

end Stores

end LinkedRing

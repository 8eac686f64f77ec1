import Mathlib.Data.List.Basic
import Mathlib.Tactic

/-!
# The builder and its handlers

The handlers of a `Builder` (`message_queue/builder.h`) are in a `LockList`, and `Run` calls
them by `LockList::ForEach` (`lock_container/lock_list.h`), with the recursive mutex of the
list held: a handler may call the builder it is called by. What matters then is which element
of the list the iterator of the loop points to, so the elements have identities here, which are
never used again, and a `++` of an iterator whose element has been erased is a fault.
-/

namespace MToolkit

/-- An element of the list of handlers. -/
structure HandlerNode (η : Type) where
  id : ℕ
  handler : η
  deriving DecidableEq

/-- The list of handlers of a `Builder`. -/
structure Builder (η : Type) where
  /-- `_handler_list` -/
  nodes : List (HandlerNode η)
  /-- The identity of the next element to be allocated. -/
  fresh : ℕ

/-- What a handler may do to the list. -/
inductive Edit (η : Type) where
  | registerHandler (handler : η) : Edit η
  | unRegisterHandler (handler : η) : Edit η
  /-- `UnRegisterHandler` without an argument. -/
  | unRegisterAll : Edit η

namespace Builder

variable {η : Type}

def init : Builder η where
  nodes := []
  fresh := 0

/-- `Builder::RegisterHandler`, which is `LockList::PushBack`. -/
def registerHandler (b : Builder η) (handler : η) : Builder η where
  nodes := b.nodes ++ [⟨b.fresh, handler⟩]
  fresh := b.fresh + 1

/-- `Builder::UnRegisterHandler`, which is `LockList::Remove`: every element that is equal. -/
def unRegisterHandler [DecidableEq η] (b : Builder η) (handler : η) : Builder η :=
  { b with nodes := b.nodes.filter fun node => node.handler ≠ handler }

/-- `Builder::UnRegisterHandler` without an argument, which is `LockList::Clear`. -/
def unRegisterAll (b : Builder η) : Builder η := { b with nodes := [] }

variable [DecidableEq η]

/-- The list after one call. -/
def edit (b : Builder η) : Edit η → Builder η
  | .registerHandler handler => b.registerHandler handler
  | .unRegisterHandler handler => b.unRegisterHandler handler
  | .unRegisterAll => b.unRegisterAll

/-- The list after the calls that have been made. -/
def after (edits : List (Edit η)) : Builder η := edits.foldl edit init

end Builder

/-! ### The loop -/

/-- `LockList::ForEach` between two callbacks. -/
structure ForEach (η : Type) where
  builder : Builder η
  /-- The element that the iterator points to, or `end()`. -/
  iter : Option ℕ
  /-- The elements whose handlers have been called. -/
  called : List (HandlerNode η)

namespace ForEach

variable {η : Type}

/-- The element behind another. -/
def next (nodes : List (HandlerNode η)) (id : ℕ) : Option ℕ :=
  ((nodes.dropWhile fun node => node.id != id).tail.head?).map HandlerNode.id

/-- `begin()`, before the first callback. -/
def start (builder : Builder η) : ForEach η where
  builder := builder
  iter := builder.nodes.head?.map HandlerNode.id
  called := []

variable [DecidableEq η]

/-- One turn of the loop: the callback, in which the handler does these calls, and `++`. -/
def turn (edits : List (Edit η)) (s : ForEach η) : Option (ForEach η) :=
  match s.iter with
  | none => some s
  | some id => do
    let node ← s.builder.nodes.find? fun node => node.id == id
    let builder := edits.foldl Builder.edit s.builder
    if builder.nodes.any fun node => node.id == id then
      some
        { builder := builder
          iter := next builder.nodes id
          called := s.called ++ [node] }
    else none

/-- `Builder::Run` after so many turns, where `callbacks k` is what the handler called as number
`k` does to the list; `none` is a fault. -/
def run (callbacks : ℕ → List (Edit η)) (s : ForEach η) : ℕ → Option (ForEach η)
  | 0 => some s
  | n + 1 => (run callbacks s n).bind (turn (callbacks n))

end ForEach

/-! ### The elements -/

namespace Builder

variable {η : Type} [DecidableEq η]

/-- The identities grow along the list, and are below the next. -/
structure Sorted (b : Builder η) : Prop where
  pairwise : b.nodes.Pairwise fun node node' => node.id < node'.id
  lt_fresh : ∀ node ∈ b.nodes, node.id < b.fresh

/-- The call erases the elements of a handler. -/
def Erases (handler : η) : Edit η → Prop
  | .registerHandler _ => False
  | .unRegisterHandler other => handler = other
  | .unRegisterAll => True

variable {b : Builder η}

omit [DecidableEq η] in
theorem sorted_init : (init : Builder η).Sorted := ⟨.nil, List.forall_mem_nil _⟩

theorem Sorted.edit (h : b.Sorted) (e : Edit η) : (b.edit e).Sorted := by
  cases e with
  | registerHandler handler =>
    constructor
    · refine List.pairwise_append.mpr ⟨h.pairwise, List.pairwise_singleton _ _, ?_⟩
      intro node hnode node' hnode'
      rw [List.mem_singleton.mp hnode']
      exact h.lt_fresh node hnode
    · intro node hnode
      rcases List.mem_append.mp hnode with hnode | hnode
      · exact Nat.lt_succ_of_lt (h.lt_fresh node hnode)
      · rw [List.mem_singleton.mp hnode]
        exact Nat.lt_succ_self _
  | unRegisterHandler handler =>
    exact ⟨h.pairwise.filter _, fun node hnode => h.lt_fresh node (List.mem_of_mem_filter hnode)⟩
  | unRegisterAll => exact ⟨.nil, List.forall_mem_nil _⟩

theorem fresh_le_edit (b : Builder η) (e : Edit η) : b.fresh ≤ (b.edit e).fresh := by
  cases e with
  | registerHandler handler => exact Nat.le_succ _
  | _ => exact le_rfl

/-- **What a call erases**, of the elements that are there. -/
theorem mem_edit {node : HandlerNode η} (e : Edit η) (hid : node.id < b.fresh) :
    node ∈ (b.edit e).nodes ↔ node ∈ b.nodes ∧ ¬Erases node.handler e := by
  cases e with
  | registerHandler handler =>
    have hne : node ≠ ⟨b.fresh, handler⟩ := by
      rintro rfl
      exact lt_irrefl _ hid
    simp [Builder.edit, registerHandler, Erases, hne]
  | unRegisterHandler handler => simp [Builder.edit, unRegisterHandler, Erases]
  | unRegisterAll => simp [Builder.edit, unRegisterAll, Erases]

/-- The same of the calls of one handler. -/
theorem sorted_foldl (edits : List (Edit η)) (h : b.Sorted) :
    (edits.foldl Builder.edit b).Sorted ∧ b.fresh ≤ (edits.foldl Builder.edit b).fresh := by
  induction edits generalizing b with
  | nil => exact ⟨h, le_rfl⟩
  | cons e edits ih =>
    obtain ⟨hsorted, hle⟩ := ih (h.edit e)
    exact ⟨hsorted, (b.fresh_le_edit e).trans hle⟩

theorem mem_foldl {node : HandlerNode η} (edits : List (Edit η)) (hid : node.id < b.fresh) :
    node ∈ (edits.foldl Builder.edit b).nodes ↔
      node ∈ b.nodes ∧ ∀ e ∈ edits, ¬Erases node.handler e := by
  induction edits generalizing b with
  | nil => simp
  | cons e edits ih =>
    rw [List.foldl_cons, ih (hid.trans_le (b.fresh_le_edit e)), mem_edit e hid,
      List.forall_mem_cons, and_assoc]

/-- Without a registration the list does not grow. -/
theorem sublist_foldl (edits : List (Edit η))
    (hreg : ∀ handler, Edit.registerHandler handler ∉ edits) :
    (edits.foldl Builder.edit b).nodes.Sublist b.nodes := by
  induction edits generalizing b with
  | nil => exact .refl _
  | cons e edits ih =>
    refine (ih fun handler hmem => hreg handler (List.mem_cons_of_mem _ hmem)).trans ?_
    cases e with
    | registerHandler handler => exact absurd List.mem_cons_self (hreg handler)
    | unRegisterHandler handler => exact List.filter_sublist
    | unRegisterAll => exact List.nil_sublist _

theorem sorted_after (edits : List (Edit η)) : (after edits).Sorted :=
  (sorted_foldl edits sorted_init).1

end Builder

end MToolkit

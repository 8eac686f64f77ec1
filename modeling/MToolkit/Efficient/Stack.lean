import MToolkit.Efficient.Queue

/-!
# The stack of the efficient containers

`Stack` of `stack.h`, on an explicit heap. It differs from `Queue` in the end an element is
popped from, the one it is pushed at, so that the newest leaves first
(`MToolkit.Stack.correct`). Both behave (`MToolkit.queue_behaves_and_stack_behaves`).
-/

namespace MToolkit

open LinkedRing

variable {α : Type}

namespace Stack

/-- `Stack()`. -/
def construct (head : Addr) : Prog α Unit := do
  new head newListNode
  setPrev head head
  setNext head head

/-- `Push(data)`, with the node that is allocated. -/
def push [Inhabited α] (head ins : Addr) (data : α) : Prog α Unit := do
  new ins newNode
  setData ins data
  let temp ← getNext head
  setNext ins temp
  setPrev ins head
  setNext head ins
  setPrev temp ins

/-- `Pop(data)`. The result comes with what `data` is afterwards. -/
def popInto (head : Addr) (data : α) : Prog α (Bool × α) := do
  let iter ← getNext head
  if iter = head then
    return (false, data)
  let data ← getData iter
  let temp ← getNext iter
  setNext head temp
  setPrev temp head
  delete iter
  return (true, data)

/-- `Pop()`. -/
def pop (head : Addr) : Prog α Bool := do
  let iter ← getNext head
  if iter = head then
    return false
  let temp ← getNext iter
  setNext head temp
  setPrev temp head
  delete iter
  return true

/-- The programs of a stack. -/
def container [Inhabited α] : Container α where
  construct := construct
  push := push
  popInto := popInto
  pop := pop

variable {h₀ h : Heap α} {head ins : Addr} {v : α} {cells r : List (Addr × α)}

/-- A pushed element is the first behind the head. -/
theorem push_stores [Inhabited α] (hs : Stores h₀ h head cells) (hins : h ins = none) (data : α) :
    ∃ h', push head ins data h = some ((), h') ∧ Stores h₀ h' head ((ins, data) :: cells) := by
  have hfresh := Fresh.withCell (c := newNode) (v := default) hins rfl
  have hdata := hfresh.withData data
  have hl : Linkable _ head ins ((cells.map Prod.fst).headD head) :=
    hs.linkable (l := []) hdata
  refine ⟨_, ?_, hs.insert hins (l := []) (hl.linkedIn hdata)⟩
  -- the links of the node are written before those to it
  rw [push, bind_eq (new_eq hins), bind_eq (setData_eq hfresh.data), bind_eq (getNext_eq hl.next),
    bind_eq (setNext_eq hl.cell), bind_eq (setPrev_eq ?_), bind_eq (setNext_eq ?_),
    setPrev_eq ?_, withNext_withPrev, withNext_comm hl.before_ne.symm]
  · simpa only [isSome_withNext, isSome_withPrev] using hl.behind
  · simpa only [isSome_withNext, isSome_withPrev] using hl.before
  · simpa only [isSome_withNext] using hl.cell

/-- What every call of `Pop` that is not on an empty stack starts with. -/
theorem getNext_head (hs : Stores h₀ h head ((ins, v) :: r)) :
    getNext head h = some (ins, h) :=
  getNext_eq hs.ring.nextOf_head

/-- The element that is popped is the one behind the head. -/
theorem popInto_stores (hs : Stores h₀ h head ((ins, v) :: r)) (data : α) :
    ∃ h', popInto head data h = some ((true, v), h') ∧ Stores h₀ h' head r := by
  have hu : Unlinkable h head ins ((r.map Prod.fst).headD head) v := hs.unlinkable (l := [])
  refine ⟨_, ?_, hs.remove (l := []) hu.linkedOut⟩
  rw [popInto, bind_eq (getNext_head hs), if_neg (hs.ne_head (l := [])),
    bind_eq (getData_eq hu.data), bind_eq (getNext_eq hu.next), bind_eq (setNext_eq hu.before),
    bind_eq (setPrev_eq ?_), bind_eq (delete_eq ?_)]
  · rfl
  · simpa only [isSome_withNext, isSome_withPrev] using hu.cell
  · simpa only [isSome_withNext] using hu.behind

theorem pop_stores (hs : Stores h₀ h head ((ins, v) :: r)) :
    ∃ h', pop head h = some (true, h') ∧ Stores h₀ h' head r := by
  have hu : Unlinkable h head ins ((r.map Prod.fst).headD head) v := hs.unlinkable (l := [])
  refine ⟨_, ?_, hs.remove (l := []) hu.linkedOut⟩
  rw [pop, bind_eq (getNext_head hs), if_neg (hs.ne_head (l := [])),
    bind_eq (getNext_eq hu.next), bind_eq (setNext_eq hu.before), bind_eq (setPrev_eq ?_),
    bind_eq (delete_eq ?_)]
  · rfl
  · simpa only [isSome_withNext, isSome_withPrev] using hu.cell
  · simpa only [isSome_withNext] using hu.behind

/-- On an empty stack `Pop` does nothing. -/
theorem popInto_nil (hs : Stores h₀ h head []) (data : α) :
    popInto head data h = some ((false, data), h) := by
  rw [popInto, bind_eq (getNext_eq hs.ring.nextOf_head)]
  exact congrFun (if_pos rfl) h

theorem pop_nil (hs : Stores h₀ h head []) : pop head h = some (false, h) := by
  rw [pop, bind_eq (getNext_eq hs.ring.nextOf_head)]
  exact congrFun (if_pos rfl) h

/-- **The stack is last in, first out.** -/
theorem correct [Inhabited α] : (container : Container α).Correct lifo where
  construct hhead := Stores.of_construct hhead newListNode
  push := push_stores
  popInto hs htake := popInto_stores (lifo_take.1 htake ▸ hs)
  popInto_nil := popInto_nil
  pop hs htake := pop_stores (lifo_take.1 htake ▸ hs)
  pop_nil := pop_nil

end Stack

/-- **Queue and stack behave**: constructed on any heap, called in any order, each keeps one ring
that is well formed, returns from every call, answers first in, first out or last in, first out,
and can be destroyed, which leaves the heap as it was. -/
theorem queue_behaves_and_stack_behaves [Inhabited α] :
    (Queue.container : Container α).Behaves fifo ∧ (Stack.container : Container α).Behaves lifo :=
  ⟨Queue.correct.meets, Stack.correct.meets⟩

end MToolkit

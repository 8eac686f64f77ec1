import MToolkit.Efficient.Container

/-!
# The queue of the efficient containers

`Queue` of `queue.h`, on an explicit heap. An element is pushed behind the head, and the one
that is popped is the one before the head, so that the oldest leaves first
(`MToolkit.Queue.correct`).
-/

namespace MToolkit

open LinkedRing

variable {α : Type}

namespace Queue

/-- `Queue()`. -/
def construct (head : Addr) : Prog α Unit := do
  new head newListNode
  setPrev head head
  setNext head head

/-- `Push(data)`, with the node that is allocated. -/
def push [Inhabited α] (head ins : Addr) (data : α) : Prog α Unit := do
  new ins newNode
  setData ins data
  let temp ← getNext head
  setNext head ins
  setPrev ins head
  setPrev temp ins
  setNext ins temp

/-- `Pop(data)`. The result comes with what `data` is afterwards. -/
def popInto (head : Addr) (data : α) : Prog α (Bool × α) := do
  let iter ← getPrev head
  if iter = head then
    return (false, data)
  let data ← getData iter
  let temp ← getPrev iter
  setNext temp head
  setPrev head temp
  delete iter
  return (true, data)

/-- `Pop()`. -/
def pop (head : Addr) : Prog α Bool := do
  let iter ← getPrev head
  if iter = head then
    return false
  let temp ← getPrev iter
  setNext temp head
  setPrev head temp
  delete iter
  return true

/-- The programs of a queue. -/
def container [Inhabited α] : Container α where
  construct := construct
  push := push
  popInto := popInto
  pop := pop

variable {h₀ h : Heap α} {head ins : Addr} {v : α} {cells l : List (Addr × α)}

/-- A pushed element is the first behind the head. -/
theorem push_stores [Inhabited α] (hs : Stores h₀ h head cells) (hins : h ins = none) (data : α) :
    ∃ h', push head ins data h = some ((), h') ∧ Stores h₀ h' head ((ins, data) :: cells) := by
  have hfresh := Fresh.withCell (c := newNode) (v := default) hins rfl
  have hdata := hfresh.withData data
  have hl : Linkable _ head ins ((cells.map Prod.fst).headD head) :=
    hs.linkable (l := []) hdata
  refine ⟨_, ?_, hs.insert hins (l := []) (hl.linkedIn hdata)⟩
  rw [push, bind_eq (new_eq hins), bind_eq (setData_eq hfresh.data), bind_eq (getNext_eq hl.next),
    bind_eq (setNext_eq hl.before), bind_eq (setPrev_eq ?_), bind_eq (setPrev_eq ?_),
    setNext_eq ?_, withNext_withPrev, withNext_withPrev]
  · simpa only [isSome_withNext, isSome_withPrev] using hl.cell
  · simpa only [isSome_withNext, isSome_withPrev] using hl.behind
  · simpa only [isSome_withNext, isSome_withPrev] using hl.cell

/-- What every call of `Pop` that is not on an empty queue starts with. -/
theorem getPrev_head (hs : Stores h₀ h head (l ++ [(ins, v)])) :
    getPrev head h = some (ins, h) := by
  refine getPrev_eq ?_
  rw [hs.ring.prevOf_head, List.map_append]
  exact congrArg some (List.getLastD_concat ..)

/-- The element that is popped is the one before the head. -/
theorem popInto_stores (hs : Stores h₀ h head (l ++ [(ins, v)])) (data : α) :
    ∃ h', popInto head data h = some ((true, v), h') ∧ Stores h₀ h' head l := by
  have hu : Unlinkable h ((l.map Prod.fst).getLastD head) ins head v := hs.unlinkable
  have hout := hs.remove hu.linkedOut
  rw [List.append_nil] at hout
  refine ⟨_, ?_, hout⟩
  rw [popInto, bind_eq (getPrev_head hs), if_neg hs.ne_head, bind_eq (getData_eq hu.data),
    bind_eq (getPrev_eq hu.prev), bind_eq (setNext_eq hu.before), bind_eq (setPrev_eq ?_),
    bind_eq (delete_eq ?_)]
  · rfl
  · simpa only [isSome_withNext, isSome_withPrev] using hu.cell
  · simpa only [isSome_withNext] using hu.behind

theorem pop_stores (hs : Stores h₀ h head (l ++ [(ins, v)])) :
    ∃ h', pop head h = some (true, h') ∧ Stores h₀ h' head l := by
  have hu : Unlinkable h ((l.map Prod.fst).getLastD head) ins head v := hs.unlinkable
  have hout := hs.remove hu.linkedOut
  rw [List.append_nil] at hout
  refine ⟨_, ?_, hout⟩
  rw [pop, bind_eq (getPrev_head hs), if_neg hs.ne_head, bind_eq (getPrev_eq hu.prev),
    bind_eq (setNext_eq hu.before), bind_eq (setPrev_eq ?_), bind_eq (delete_eq ?_)]
  · rfl
  · simpa only [isSome_withNext, isSome_withPrev] using hu.cell
  · simpa only [isSome_withNext] using hu.behind

/-- On an empty queue `Pop` does nothing. -/
theorem popInto_nil (hs : Stores h₀ h head []) (data : α) :
    popInto head data h = some ((false, data), h) := by
  rw [popInto, bind_eq (getPrev_eq hs.ring.prevOf_head)]
  exact congrFun (if_pos rfl) h

theorem pop_nil (hs : Stores h₀ h head []) : pop head h = some (false, h) := by
  rw [pop, bind_eq (getPrev_eq hs.ring.prevOf_head)]
  exact congrFun (if_pos rfl) h

/-- **The queue is first in, first out.** -/
theorem correct [Inhabited α] : (container : Container α).Correct fifo where
  construct hhead := Stores.of_construct hhead newListNode
  push := push_stores
  popInto hs htake := popInto_stores (fifo_take.1 htake ▸ hs)
  popInto_nil := popInto_nil
  pop hs htake := pop_stores (fifo_take.1 htake ▸ hs)
  pop_nil := pop_nil

end Queue

end MToolkit

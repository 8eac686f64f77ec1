import MToolkit.Library.Condvar
import Mathlib.Data.List.InsertIdx

/-!
# The locked list

The class `LockList` (`lock_container/lock_list.h`): a `std::list` with a mutex and a
condition variable. It derives publicly from the list it wraps, so that beside the
wrapper's operations, which lock and notify, the operations of the plain list can be
called on it, which do neither. Of these `insert` is one that is called.

Each operation is one critical section of the mutex; a thread in `WaitPopFront` takes
part in two or more, going to sleep at the end of each in which it finds the list empty.
The harm a missing notification does is `MToolkit.LockList.Lost`: an element is there and
a thread sleeps that waits for one. `PushBack` cannot do it, `insert` does it whenever
somebody sleeps.
-/

namespace MToolkit

open Condvar

/-- What a thread is doing, as far as the condition variable goes. -/
inductive Waiter where
  /-- It is not in a wait. -/
  | running : Waiter
  /-- It sleeps in a wait, the mutex released. -/
  | asleep : Waiter
  /-- It has been woken and has to take the mutex again. -/
  | notified : Waiter
  deriving DecidableEq

/-- A list with its waiting threads. -/
structure LockList (ι α : Type) where
  /-- The `std::list`. -/
  items : List α
  /-- What each thread is doing. -/
  waiter : ι → Waiter

namespace LockList

variable {ι α : Type}

def init : LockList ι α where
  items := []
  waiter := fun _ => .running

/-- `LockList::PushBack`. -/
def pushBack (l : LockList ι α) (value : α) : LockList ι α where
  items := l.items ++ [value]
  waiter := notifyAll .asleep .notified l.waiter

/-- `std::list::insert`, inherited; the iterator is given by its distance from
`begin()`. -/
def insert (l : LockList ι α) (iter : ℕ) (value : α) : LockList ι α :=
  { l with items := l.items.insertIdx iter value }

/-- A critical section of thread `i` in `LockList::WaitPopFront`: from taking the mutex,
at the call or after a wake-up, to releasing it, with the value popped if there is one
and in a wait otherwise. -/
def waitPopFront [DecidableEq ι] (l : LockList ι α) (i : ι) : Option α × LockList ι α :=
  match l.items with
  | [] => (none, { l with waiter := Function.update l.waiter i .asleep })
  | value :: items => (some value, ⟨items, Function.update l.waiter i .running⟩)

/-- **A lost wake-up**: the list has an element, and a thread sleeps that has not been
notified since it found the list empty. -/
def Lost (l : LockList ι α) : Prop := l.items ≠ [] ∧ ∃ i, l.waiter i = .asleep

variable {l : LockList ι α}

theorem not_lost_init : ¬(init : LockList ι α).Lost := fun h => h.1 rfl

/-- After `PushBack` nobody sleeps. -/
theorem not_lost_pushBack (value : α) : ¬(l.pushBack value).Lost := by
  rintro ⟨-, i, hi⟩
  exact notifyAll_ne_asleep (by decide) hi

theorem insert_items_ne_nil {iter : ℕ} (hiter : iter ≤ l.items.length) (value : α) :
    (l.insert iter value).items ≠ [] := by
  intro hnil
  have hlen : (l.insert iter value).items.length = l.items.length + 1 :=
    List.length_insertIdx_of_le_length hiter value
  rw [hnil, List.length_nil] at hlen
  omega

/-- **`insert` loses the wake-up of everyone who sleeps.** -/
theorem lost_insert_iff {iter : ℕ} (hiter : iter ≤ l.items.length) (value : α) :
    (l.insert iter value).Lost ↔ ∃ i, l.waiter i = .asleep :=
  ⟨And.right, fun h => ⟨insert_items_ne_nil hiter value, h⟩⟩

variable [DecidableEq ι]

theorem waitPopFront_of_nil (h : l.items = []) (i : ι) :
    l.waitPopFront i = (none, { l with waiter := Function.update l.waiter i .asleep }) := by
  simp [waitPopFront, h]

theorem waitPopFront_of_cons {value : α} {items : List α} (h : l.items = value :: items)
    (i : ι) :
    l.waitPopFront i = (some value, ⟨items, Function.update l.waiter i .running⟩) := by
  simp [waitPopFront, h]

/-- A pop takes the front element, if there is one, -/
theorem waitPopFront_fst (l : LockList ι α) (i : ι) : (l.waitPopFront i).1 = l.items.head? := by
  rcases hitems : l.items with _ | ⟨value, items⟩
  · rw [waitPopFront_of_nil hitems, List.head?_nil]
  · rw [waitPopFront_of_cons hitems, List.head?_cons]

/-- and leaves the others. -/
theorem waitPopFront_items (l : LockList ι α) (i : ι) :
    (l.waitPopFront i).2.items = l.items.tail := by
  rcases hitems : l.items with _ | ⟨value, items⟩
  · rw [waitPopFront_of_nil hitems]
    exact hitems
  · rw [waitPopFront_of_cons hitems, List.tail_cons]

/-- A pop loses no wake-up: it sleeps only on an empty list. -/
theorem not_lost_waitPopFront (h : ¬l.Lost) (i : ι) : ¬(l.waitPopFront i).2.Lost := by
  rw [waitPopFront]
  split
  · next hnil => exact fun hc => hc.1 hnil
  · next value items hcons =>
    rintro ⟨-, j, hj⟩
    by_cases hji : j = i
    · subst hji
      simp at hj
    · exact h ⟨by simp [hcons], j, by simpa [hji] using hj⟩

end LockList

end MToolkit

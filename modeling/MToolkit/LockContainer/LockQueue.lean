import MToolkit.Library.Lts
import MToolkit.LockContainer.LockList

/-!
# The locked queue and its clients

The class `LockQueue` (`lock_container/lock_queue.h`) is a `std::queue` with a mutex and a
condition variable, and its critical sections are those of `LockList`: `Push` is
`PushBack`, `WaitAndPop()` and `WaiAndPop(value)` are `WaitPopFront(value)`, and the timed
`WaiAndPop(timeout, value)` is `WaitPopFront(value, timeout)`. What its clients can do is
therefore what those of a `LockList` can do, save for `TryPop`.

A timed pop tests once whether there is an element. If there is none it waits, once, and
then goes by what `wait_for` returns: `timeout`, and it fails; `no_timeout`, and it takes
the front element, whether or not there is one. The timeout may come while the thread
sleeps or when it has been woken and has not yet taken the mutex.
-/

namespace MToolkit

open Condvar

/-- How a critical section of a timed pop ends. -/
inductive Outcome (α : Type) where
  /-- In the wait. -/
  | waits : Outcome α
  /-- The pop returns true, with a value. -/
  | popped (value : α) : Outcome α
  /-- The pop returns false. -/
  | failed : Outcome α
  /-- The pop reads the front of an empty container. -/
  | undefined : Outcome α

/-- The value popped, if there is one. -/
def Outcome.value {α : Type} : Outcome α → Option α
  | .popped value => some value
  | _ => none

namespace LockList

variable {ι α : Type} [DecidableEq ι]

/-- `LockList::WaitPopFront(value, timeout)`, from the call to its end or to `wait_for`. -/
def waitPopFrontFor (l : LockList ι α) (i : ι) : Outcome α × LockList ι α :=
  match l.items with
  | [] => (.waits, { l with waiter := Function.update l.waiter i .asleep })
  | value :: items => (.popped value, ⟨items, l.waiter⟩)

/-- `LockList::WaitPopFront(value, timeout)`, from `wait_for`, which has returned `timeout`
or not, to its end. -/
def waitPopFrontWoken (l : LockList ι α) (i : ι) (timeout : Bool) : Outcome α × LockList ι α :=
  if timeout then (.failed, { l with waiter := Function.update l.waiter i .running })
  else
    match l.items with
    | [] => (.undefined, { l with waiter := Function.update l.waiter i .running })
    | value :: items => (.popped value, ⟨items, Function.update l.waiter i .running⟩)

end LockList

/-- A queue with its waiting threads. -/
abbrev LockQueue (ι α : Type) := LockList ι α

namespace LockQueue

variable {ι α : Type}

/-- `LockQueue::Push`, both overloads. -/
def push (q : LockQueue ι α) (value : α) : LockQueue ι α := q.pushBack value

/-- `LockQueue::TryPop`, both overloads: false is `none`. -/
def tryPop (q : LockQueue ι α) : Option α × LockQueue ι α :=
  match q.items with
  | [] => (none, q)
  | value :: items => (some value, { q with items := items })

variable [DecidableEq ι]

/-- A critical section of `LockQueue::WaitAndPop()` and of `LockQueue::WaiAndPop(value)`. -/
def waitAndPop (q : LockQueue ι α) (i : ι) : Option α × LockQueue ι α := q.waitPopFront i

/-- `LockQueue::WaiAndPop(timeout, value)`, up to `wait_for`. -/
def waiAndPopFor (q : LockQueue ι α) (i : ι) : Outcome α × LockQueue ι α := q.waitPopFrontFor i

/-- `LockQueue::WaiAndPop(timeout, value)`, from `wait_for` on. -/
def waiAndPopWoken (q : LockQueue ι α) (i : ι) (timeout : Bool) : Outcome α × LockQueue ι α :=
  q.waitPopFrontWoken i timeout

end LockQueue

/-- A queue and the threads that use it. -/
structure Clients (ι α : Type) where
  queue : LockQueue ι α
  /-- How many pops have been called. -/
  calls : ℕ
  /-- The number of the pop that a thread is in, or was in last. -/
  call : ι → ℕ
  /-- Whether that is a timed pop. -/
  timed : ι → Bool
  /-- Whether its time is over. -/
  timedOut : ι → Bool
  /-- What has been pushed, in order. -/
  pushed : List α
  /-- What has been removed, in order, and by which pop. -/
  removed : List (ℕ × α)

namespace Clients

variable {ι α : Type}

/-- An empty queue that nobody uses. -/
def init : Clients ι α where
  queue := .init
  calls := 0
  call := fun _ => 0
  timed := fun _ => false
  timedOut := fun _ => false
  pushed := []
  removed := []

/-- A `Push`. -/
def push (s : Clients ι α) (value : α) : Clients ι α :=
  { s with queue := s.queue.push value, pushed := s.pushed ++ [value] }

/-- A critical section of thread `i` in a pop ends, with a value or without. -/
def take (s : Clients ι α) (i : ι) (value : Option α) (queue : LockQueue ι α) : Clients ι α :=
  { s with queue := queue, removed := s.removed ++ (value.map (Prod.mk (s.call i))).toList }

variable [DecidableEq ι]

/-- Thread `i` calls a pop. -/
def start (s : Clients ι α) (i : ι) (timed : Bool) : Clients ι α :=
  { s with
    calls := s.calls + 1
    call := Function.update s.call i s.calls
    timed := Function.update s.timed i timed
    timedOut := Function.update s.timedOut i false }

@[simp] theorem start_call_self (s : Clients ι α) (i : ι) (timed : Bool) :
    (s.start i timed).call i = s.calls := by
  simp [start]

theorem start_call_of_ne (s : Clients ι α) {i j : ι} (h : j ≠ i) (timed : Bool) :
    (s.start i timed).call j = s.call j := by
  simp [start, h]

/-- Thread `i` is woken. -/
def wake (s : Clients ι α) (i : ι) : Clients ι α :=
  { s with queue := { s.queue with waiter := Function.update s.queue.waiter i .notified } }

/-- What the threads do. -/
inductive Label (ι α : Type) where
  | push (value : α) : Label ι α
  /-- Thread `i` calls `WaitAndPop()` or `WaiAndPop(value)`. -/
  | waitAndPop (i : ι) : Label ι α
  /-- Thread `i`, woken in one of these, takes the mutex again. -/
  | reacquire (i : ι) : Label ι α
  /-- Thread `i` calls `WaiAndPop(timeout, value)`. -/
  | waiAndPop (i : ι) : Label ι α
  /-- Thread `i`, woken in this, takes the mutex again. -/
  | woken (i : ι) : Label ι α
  /-- The time of thread `i` in this is over. -/
  | timeout (i : ι) : Label ι α
  /-- Thread `i` wakes up without having been notified. -/
  | spurious (i : ι) : Label ι α
  /-- Thread `i` calls `TryPop`. -/
  | tryPop (i : ι) : Label ι α

/-- The steps of the threads, in any interleaving of their critical sections. -/
inductive Step : Clients ι α → Label ι α → Clients ι α → Prop
  | push {s : Clients ι α} (value : α) : Step s (.push value) (s.push value)
  | waitAndPop {s : Clients ι α} {i : ι} : s.queue.waiter i = .running →
      Step s (.waitAndPop i)
        ((s.start i false).take i (s.queue.waitAndPop i).1 (s.queue.waitAndPop i).2)
  | reacquire {s : Clients ι α} {i : ι} : s.queue.waiter i = .notified → s.timed i = false →
      Step s (.reacquire i) (s.take i (s.queue.waitAndPop i).1 (s.queue.waitAndPop i).2)
  | waiAndPop {s : Clients ι α} {i : ι} : s.queue.waiter i = .running →
      Step s (.waiAndPop i)
        ((s.start i true).take i (s.queue.waiAndPopFor i).1.value (s.queue.waiAndPopFor i).2)
  | woken {s : Clients ι α} {i : ι} : s.queue.waiter i = .notified → s.timed i = true →
      Step s (.woken i) (s.take i (s.queue.waiAndPopWoken i (s.timedOut i)).1.value
        (s.queue.waiAndPopWoken i (s.timedOut i)).2)
  | timeout {s : Clients ι α} {i : ι} : s.queue.waiter i ≠ .running → s.timed i = true →
      Step s (.timeout i) { s.wake i with timedOut := Function.update s.timedOut i true }
  | spurious {s : Clients ι α} {i : ι} : s.queue.waiter i = .asleep →
      Step s (.spurious i) (s.wake i)
  | tryPop {s : Clients ι α} {i : ι} : s.queue.waiter i = .running →
      Step s (.tryPop i) ((s.start i false).take i s.queue.tryPop.1 s.queue.tryPop.2)

end Clients

end MToolkit

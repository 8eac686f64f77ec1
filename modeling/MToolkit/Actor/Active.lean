import MToolkit.Actor.Deque

/-!
# The active object

The class `Active` (`actor/active.cpp`): a queue of events and the thread that `Start` has
started, which takes the events and dispatches them, with any number of threads that push
events, and one that calls `Stop`. Handlers may do whatever the other threads may.

`Stop` is four steps of its thread: it sets `_running` to false, reads the length of the
queue, pushes an empty event if that was zero, and joins the thread.
-/

namespace MToolkit

/-- Where the thread is that `Start` has started. -/
inductive Working (α : Type) where
  /-- About to test `_running`. -/
  | testing : Working α
  /-- In `Pop`. -/
  | popping : Working α
  /-- `Pop` has returned the event, and `Dispatch` is next. -/
  | popped (event : α) : Working α
  /-- In `Dispatch`. -/
  | dispatching : Working α
  /-- It has left the loop. -/
  | exited : Working α

/-- Where the thread is that calls `Stop`. -/
inductive Stopping where
  | outside : Stopping
  /-- It has set `_running` to false. -/
  | stored : Stopping
  /-- It has found the queue empty. -/
  | pushing : Stopping
  /-- It joins the thread. -/
  | joining : Stopping
  deriving DecidableEq

/-- The state of an `Active` and of the threads that use it. -/
structure Active (α : Type) where
  /-- `_running` -/
  running : Bool
  /-- `_queue` -/
  queue : Deque Unit α
  /-- `_work_thread` -/
  working : Working α
  stopping : Stopping
  /-- How many times `Dispatch` has been called since `Stop` set `_running` to false. -/
  dispatched : ℕ

namespace Active

variable {α : Type}

/-- An `Active` that has been started. -/
def init : Active α where
  running := true
  queue := .init
  working := .testing
  stopping := .outside
  dispatched := 0

/-- The thread tests `_running`. -/
def test (s : Active α) : Active α :=
  { s with working := if s.running then .popping else .exited }

/-- A critical section of the thread in `Pop`. -/
def pop (s : Active α) : Active α :=
  { s with
    queue := (s.queue.pop ()).2
    working := match (s.queue.pop ()).1 with
      | none => .popping
      | some event => .popped event }

theorem pop_of_nil {s : Active α} (h : s.queue.items = []) :
    s.pop = { s with
      queue := { s.queue with waiter := Function.update s.queue.waiter () .asleep }
      working := .popping } := by
  rw [pop, Deque.pop, LockList.waitPopFront_of_nil h]

theorem pop_of_cons {s : Active α} {event : α} {items : List α}
    (h : s.queue.items = event :: items) :
    s.pop = { s with
      queue := ⟨items, Function.update s.queue.waiter () .running⟩
      working := .popped event } := by
  rw [pop, Deque.pop, LockList.waitPopFront_of_cons h]

/-- The thread calls `Dispatch`. -/
def dispatch (s : Active α) : Active α :=
  { s with
    working := .dispatching
    dispatched := if s.stopping = .outside then s.dispatched else s.dispatched + 1 }

/-- `Stop` reads the length of the queue. -/
def readSize (s : Active α) : Active α :=
  { s with stopping := if s.queue.size = 0 then .pushing else .joining }

/-- What the threads do. -/
inductive Label (α : Type) where
  | pushBack (event : α) : Label α
  | pushFront (event : α) : Label α
  /-- The thread tests `_running`. -/
  | test : Label α
  /-- The thread takes the mutex in `Pop`. -/
  | pop : Label α
  /-- It wakes up without having been notified. -/
  | spurious : Label α
  /-- The thread calls `Dispatch`. -/
  | dispatch : Label α
  /-- `Dispatch` returns. -/
  | returned : Label α
  /-- `Stop` sets `_running` to false. -/
  | store : Label α
  /-- `Stop` reads the length of the queue. -/
  | readSize : Label α
  /-- `Stop` pushes the empty event. -/
  | pushEmpty : Label α

/-- The steps, in any interleaving, where `eventEmpty` is `StdEventPtr[EVENT_EMPTY]`. -/
inductive Step (eventEmpty : α) : Active α → Label α → Active α → Prop
  | pushBack {s : Active α} {event : α} {queue : Deque Unit α} : s.queue.PushBack event queue →
      Step eventEmpty s (.pushBack event) { s with queue := queue }
  | pushFront {s : Active α} {event : α} {queue : Deque Unit α} : s.queue.PushFront event queue →
      Step eventEmpty s (.pushFront event) { s with queue := queue }
  | test {s : Active α} : s.working = .testing → Step eventEmpty s .test s.test
  | pop {s : Active α} : s.working = .popping → s.queue.waiter () ≠ .asleep →
      Step eventEmpty s .pop s.pop
  | spurious {s : Active α} : s.queue.waiter () = .asleep →
      Step eventEmpty s .spurious { s with queue := s.queue.wake () }
  | dispatch {s : Active α} {event : α} : s.working = .popped event →
      Step eventEmpty s .dispatch s.dispatch
  | returned {s : Active α} : s.working = .dispatching →
      Step eventEmpty s .returned { s with working := .testing }
  | store {s : Active α} : s.stopping = .outside →
      Step eventEmpty s .store { s with running := false, stopping := .stored }
  | readSize {s : Active α} : s.stopping = .stored → Step eventEmpty s .readSize s.readSize
  | pushEmpty {s : Active α} {queue : Deque Unit α} : s.stopping = .pushing →
      s.queue.PushBack eventEmpty queue →
      Step eventEmpty s .pushEmpty { s with queue := queue, stopping := .joining }

end Active

end MToolkit

import MToolkit.Library.Lts
import MToolkit.LockContainer.LockList

/-!
# The message queue

The class `MessageQueue` (`message_queue/message_queue.cpp`) with any number of threads
that call `Enqueue` and `Next`. Messages are shared objects: the list holds identities,
and the due time of a message, `_when`, is read from the object each time it is compared.
-/

namespace MToolkit

/-- The identity of a `Message`. -/
abbrev MessageId := ℕ

/-- The state of a `MessageQueue` and of the messages there are. -/
structure MessageQueue (ι : Type) where
  /-- `_list` -/
  list : LockList ι MessageId
  /-- `When()` of each message. -/
  when : MessageId → UInt64

namespace MessageQueue

variable {ι : Type}

/-- An empty queue. -/
def init (when : MessageId → UInt64) : MessageQueue ι where
  list := .init
  when := when

/-- The iterator at which the loop of `Enqueue` stops: the first message that is due
later, or the end. -/
def position (s : MessageQueue ι) (message : MessageId) : ℕ :=
  s.list.items.findIdx fun m => s.when m > s.when message

theorem position_le (s : MessageQueue ι) (message : MessageId) :
    s.position message ≤ s.list.items.length := List.findIdx_le_length

/-- `MessageQueue::Enqueue`. The list it inserts into is the inherited one. -/
def enqueue (s : MessageQueue ι) (message : MessageId) : MessageQueue ι :=
  { s with list := s.list.insert (s.position message) message }

/-- A critical section of thread `i` in `MessageQueue::Next`. -/
def next [DecidableEq ι] (s : MessageQueue ι) (i : ι) : Option MessageId × MessageQueue ι :=
  let (message, list) := s.list.waitPopFront i
  (message, { s with list := list })

theorem next_of_nil [DecidableEq ι] {s : MessageQueue ι} (h : s.list.items = []) (i : ι) :
    s.next i =
      (none,
        { s with list := { s.list with waiter := Function.update s.list.waiter i .asleep } }) := by
  rw [next, LockList.waitPopFront_of_nil h]

theorem next_of_cons [DecidableEq ι] {s : MessageQueue ι} {message : MessageId}
    {items : List MessageId} (h : s.list.items = message :: items) (i : ι) :
    s.next i =
      (some message,
        { s with list := ⟨items, Function.update s.list.waiter i .running⟩ }) := by
  rw [next, LockList.waitPopFront_of_cons h]

/-- `Next` takes the front message. -/
theorem next_fst [DecidableEq ι] (s : MessageQueue ι) (i : ι) :
    (s.next i).1 = s.list.items.head? :=
  s.list.waitPopFront_fst i

/-- What a thread does with a queue. -/
inductive Label (ι : Type) where
  /-- `Enqueue(message)`. -/
  | enqueue (message : MessageId) : Label ι
  /-- Thread `i` calls `Next`. -/
  | next (i : ι) : Label ι
  /-- Thread `i`, notified, takes the mutex again. -/
  | reacquire (i : ι) : Label ι
  /-- Thread `i` wakes up without having been notified. -/
  | spurious (i : ι) : Label ι
  /-- `_when` of a message is set, as `Message::Send` does before it enqueues. -/
  | setWhen (message : MessageId) (value : UInt64) : Label ι

variable [DecidableEq ι]

/-- The steps of the threads, in any interleaving of their critical sections. -/
inductive Step : MessageQueue ι → Label ι → MessageQueue ι → Prop
  | enqueue {s : MessageQueue ι} (message : MessageId) :
      Step s (.enqueue message) (s.enqueue message)
  | next {s : MessageQueue ι} {i : ι} : s.list.waiter i = .running → Step s (.next i) (s.next i).2
  | reacquire {s : MessageQueue ι} {i : ι} : s.list.waiter i = .notified →
      Step s (.reacquire i) (s.next i).2
  | spurious {s : MessageQueue ι} {i : ι} : s.list.waiter i = .asleep →
      Step s (.spurious i)
        { s with list := { s.list with waiter := Function.update s.list.waiter i .notified } }
  | setWhen {s : MessageQueue ι} (message : MessageId) (value : UInt64) :
      Step s (.setWhen message value)
        { s with when := Function.update s.when message value }

end MessageQueue

end MToolkit

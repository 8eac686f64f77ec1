import MToolkit.MessageQueue.Queue

/-!
# The looper

The class `Looper` (`message_queue/looper.cpp`): a message queue and the thread that takes
its messages, one at a time, and runs them, with any number of threads that send messages
to it, and one that destroys it.

`Message::Send` (`message_queue/message.cpp`) is two steps of its thread: it sets the due
time of the message from the clock, which only goes forward, and then has the message
enqueued. Handlers run for a while and may do whatever the other threads may. A log
records when messages are sent and when they are run.
-/

namespace MToolkit

/-- Where the looper's thread is in `Loop`. -/
inductive Looping where
  /-- About to test `_running`. -/
  | testing : Looping
  /-- In `Next`. -/
  | next : Looping
  /-- `Next` has returned the message, and `Run` is next. -/
  | run (message : MessageId) : Looping
  /-- The handlers of the message run. -/
  | handling (message : MessageId) : Looping
  /-- It has left the loop. -/
  | exited : Looping
  deriving DecidableEq

/-- Where the thread is that destroys the looper. -/
inductive Destroying where
  | outside : Destroying
  /-- It has set `_running` to false. -/
  | stored : Destroying
  /-- It joins the looper's thread. -/
  | joining : Destroying
  deriving DecidableEq

/-- What is worth recording. -/
inductive Event where
  /-- `Send(delay)` of a message reads the clock. -/
  | sent (message : MessageId) (delay clock : UInt64) : Event
  /-- The looper runs a message. -/
  | ran (message : MessageId) (clock : UInt64) : Event

/-- The state of a `Looper` and of the threads that use it. -/
structure Looper where
  /-- `_running` -/
  running : Bool
  /-- `_message_queue` -/
  queue : MessageQueue Unit
  /-- `_work_thread` -/
  looping : Looping
  destroying : Destroying
  /-- `Timestamp::MonotonicMilliseconds()` -/
  clock : UInt64
  log : List Event

namespace Looper

/-- The constructor. -/
def init : Looper where
  running := true
  queue := .init fun _ => 0
  looping := .testing
  destroying := .outside
  clock := 0
  log := []

/-- The due time `Message::Send` computes. -/
def dueTime (when clock : UInt64) : UInt64 := if when ≠ 0 then when + clock else 0

/-- `Message::Send` up to the call of `EnqueueMessage`. -/
def send (s : Looper) (message : MessageId) (when : UInt64) : Looper :=
  { s with
    queue := { s.queue with
      when := Function.update s.queue.when message (dueTime when s.clock) }
    log := s.log ++ [.sent message when s.clock] }

/-- `Looper::EnqueueMessage`. -/
def enqueueMessage (s : Looper) (message : MessageId) : Looper :=
  { s with queue := s.queue.enqueue message }

/-- `Loop` tests `_running`. -/
def test (s : Looper) : Looper :=
  { s with looping := if s.running then .next else .exited }

/-- A critical section of the looper's thread in `Next`. -/
def next (s : Looper) : Looper :=
  { s with
    queue := (s.queue.next ()).2
    looping := match (s.queue.next ()).1 with
      | none => .next
      | some message => .run message }

/-- The steps the threads take. -/
inductive Label where
  | send (message : MessageId) (when : UInt64) : Label
  | enqueue (message : MessageId) : Label
  /-- The clock goes on. -/
  | tick (clock : UInt64) : Label
  /-- `Loop` tests `_running`. -/
  | test : Label
  /-- The looper's thread takes the mutex in `Next`. -/
  | next : Label
  /-- It wakes up without having been notified. -/
  | spurious : Label
  /-- It calls `Run`. -/
  | run : Label
  /-- The handlers return. -/
  | handled : Label
  /-- `Exit` is called. -/
  | exit : Label
  /-- The destructor sets `_running` to false. -/
  | store : Label
  /-- The destructor calls `join`. -/
  | join : Label

/-- The steps, in any interleaving. -/
inductive Step : Looper → Label → Looper → Prop
  | send {s : Looper} (message : MessageId) (when : UInt64) :
      Step s (.send message when) (s.send message when)
  | enqueue {s : Looper} (message : MessageId) :
      Step s (.enqueue message) (s.enqueueMessage message)
  | tick {s : Looper} {clock : UInt64} : s.clock ≤ clock →
      Step s (.tick clock) { s with clock := clock }
  | test {s : Looper} : s.looping = .testing → Step s .test s.test
  | next {s : Looper} : s.looping = .next → s.queue.list.waiter () ≠ .asleep → Step s .next s.next
  | spurious {s : Looper} : s.looping = .next → s.queue.list.waiter () = .asleep →
      Step s .spurious
        { s with queue := { s.queue with list := { s.queue.list with
            waiter := Function.update s.queue.list.waiter () .notified } } }
  | run {s : Looper} {message : MessageId} : s.looping = .run message →
      Step s .run { s with looping := .handling message, log := s.log ++ [.ran message s.clock] }
  | handled {s : Looper} {message : MessageId} : s.looping = .handling message →
      Step s .handled { s with looping := .testing }
  | exit {s : Looper} : Step s .exit { s with running := false }
  | store {s : Looper} : s.destroying = .outside →
      Step s .store { s with running := false, destroying := .stored }
  | join {s : Looper} : s.destroying = .stored → Step s .join { s with destroying := .joining }

/-- The states the threads can reach. -/
def Reachable (s : Looper) : Prop := ∃ ls : List Label, Lts.Run Step init ls s

end Looper

end MToolkit

import MToolkit.Library.Census
import MToolkit.Library.Condvar
import MToolkit.Library.Lts
import Mathlib.Data.Fintype.Card

/-!
# The thread pool

The class `ThreadPool` (`poll/thread_poll.h`, `poll/thread_poll.cpp`): workers, one for
each `i : ι`, any number of threads that call `Commit`, one that calls `Wait`, and one
that calls `Release`.

A step is one access to what the threads share. What a worker does with the mutex held is
one step up to the point where it takes a task, leaves, or finds that it has to wait;
going to sleep, which releases the mutex, is another, so that the mutex is held between
them (`MToolkit.ThreadPool.Unlocked`). `Commit` notifies after it has released the mutex,
and `Release` never takes it. `IsComplete` reads the length of the queue, without the
mutex, and then the counter.

Tasks are numbered in the order in which `Commit` queues them.
-/

namespace MToolkit

open Condvar

/-- The number of a task. -/
abbrev TaskId := ℕ

/-- Where a worker is in the loop of `Create`. -/
inductive Worker where
  /-- About to take the mutex. -/
  | outside : Worker
  /-- It holds the mutex and has found the predicate of the wait false. -/
  | blocking : Worker
  /-- It sleeps in the wait. -/
  | asleep : Worker
  /-- It has been woken and has to take the mutex again. -/
  | notified : Worker
  /-- It has taken the task and released the mutex; `--_freeSize` is next. -/
  | taken (task : TaskId) : Worker
  /-- It runs the task. -/
  | running (task : TaskId) : Worker
  /-- The task has returned; `++_freeSize` is next. -/
  | ran : Worker
  /-- It has left the loop. -/
  | exited : Worker
  deriving DecidableEq

/-- Where the thread is that calls `Wait`. The number is that of the tasks committed
before the call. -/
inductive Waiting where
  | outside : Waiting
  /-- `IsComplete` is about to read `_tasks.empty()`. -/
  | testing (committed : ℕ) : Waiting
  /-- It has found the queue empty and is about to read `_freeSize`. -/
  | sawEmpty (committed : ℕ) : Waiting
  /-- `IsComplete` was true, and `Wait` has returned. -/
  | returned (committed : ℕ) : Waiting
  deriving DecidableEq

/-- Where the thread is that calls `Release`. -/
inductive Releasing where
  | outside : Releasing
  /-- It has stored `_isClose`; `notify_all` is next. -/
  | stored : Releasing
  /-- It joins the workers. -/
  | joining : Releasing
  deriving DecidableEq

/-- The state of a `ThreadPool` and of the threads that use it. -/
structure ThreadPool (ι : Type) where
  /-- `_tasks` -/
  tasks : List TaskId
  /-- `_isClose` -/
  isClose : Bool
  /-- `_freeSize` -/
  freeSize : ℤ
  /-- `_pool` -/
  worker : ι → Worker
  /-- How many tasks have been queued. -/
  committed : ℕ
  /-- The tasks that have returned, in order. -/
  finished : List TaskId
  /-- How many calls of `Commit` have still to notify. -/
  notifying : ℕ
  waiting : Waiting
  releasing : Releasing

namespace ThreadPool

variable {ι : Type}

/-- The constructor, given as many workers as `ι` has elements. -/
def init [Fintype ι] : ThreadPool ι where
  tasks := []
  isClose := false
  freeSize := Fintype.card ι
  worker := fun _ => .outside
  committed := 0
  finished := []
  notifying := 0
  waiting := .outside
  releasing := .outside

/-- The mutex is free. -/
def Unlocked (s : ThreadPool ι) : Prop := ∀ i, s.worker i ≠ .blocking

instance [Fintype ι] (s : ThreadPool ι) : Decidable s.Unlocked :=
  inferInstanceAs (Decidable (∀ i, s.worker i ≠ .blocking))

/-- The critical section of `Commit`. -/
def push (s : ThreadPool ι) : ThreadPool ι :=
  { s with
    tasks := s.tasks ++ [s.committed]
    committed := s.committed + 1
    notifying := s.notifying + 1 }

/-- `IsComplete` reads `_tasks.empty()`. -/
def readEmpty (s : ThreadPool ι) (committed : ℕ) : ThreadPool ι :=
  { s with waiting := if s.tasks.isEmpty then .sawEmpty committed else .testing committed }

/-- `IsComplete` reads `_freeSize`, the queue having been empty. -/
def readFreeSize [Fintype ι] (s : ThreadPool ι) (committed : ℕ) : ThreadPool ι :=
  { s with
    waiting := if s.freeSize = Fintype.card ι then .returned committed else .testing committed }

variable [DecidableEq ι]

/-- Worker `i` goes on. -/
def move (s : ThreadPool ι) (i : ι) (w : Worker) : ThreadPool ι :=
  { s with worker := Function.update s.worker i w }

@[simp] theorem move_worker (s : ThreadPool ι) (i : ι) (w : Worker) :
    (s.move i w).worker = Function.update s.worker i w := rfl

@[simp] theorem move_tasks (s : ThreadPool ι) (i : ι) (w : Worker) :
    (s.move i w).tasks = s.tasks := rfl

/-- What worker `i` does once it has the mutex: the predicate of the wait is true when there
is a task or the pool is closed, and a closed pool is left whether or not there are
tasks. -/
def enter (s : ThreadPool ι) (i : ι) : ThreadPool ι :=
  match s.tasks with
  | [] => s.move i (if s.isClose then .exited else .blocking)
  | task :: tasks =>
    if s.isClose then s.move i .exited else { s.move i (.taken task) with tasks := tasks }

/-- A closed pool is left by whoever looks at it. -/
theorem enter_of_isClose {s : ThreadPool ι} (h : s.isClose = true) (i : ι) :
    s.enter i = s.move i .exited := by
  rw [enter]
  split <;> rw [if_pos h]

/-- What a worker does in an open pool when it finds no task. -/
theorem enter_of_nil {s : ThreadPool ι} (hopen : s.isClose = false) (hnil : s.tasks = [])
    (i : ι) : s.enter i = s.move i .blocking := by
  simp [enter, hnil, hopen]

/-- What a worker does in an open pool when it finds a task. -/
theorem enter_of_cons {s : ThreadPool ι} (hopen : s.isClose = false) {task : TaskId}
    {tasks : List TaskId} (hcons : s.tasks = task :: tasks) (i : ι) :
    s.enter i = { s.move i (.taken task) with tasks := tasks } := by
  simp [enter, hcons, hopen]

/-- The steps the threads take. -/
inductive Label (ι : Type) where
  /-- A `Commit` queues its task. -/
  | push : Label ι
  /-- A `Commit` notifies one worker. -/
  | notifyOne : Label ι
  /-- Worker `i` takes the mutex. -/
  | enter (i : ι) : Label ι
  /-- Worker `i` goes to sleep and releases the mutex. -/
  | sleep (i : ι) : Label ι
  /-- Worker `i` wakes up without having been notified. -/
  | spurious (i : ι) : Label ι
  /-- Worker `i` does `--_freeSize`. -/
  | decrement (i : ι) : Label ι
  /-- The task of worker `i` returns. -/
  | finish (i : ι) : Label ι
  /-- Worker `i` does `++_freeSize`. -/
  | increment (i : ι) : Label ι
  /-- `Wait` is called. -/
  | wait : Label ι
  /-- `IsComplete` reads `_tasks.empty()`. -/
  | readEmpty : Label ι
  /-- `IsComplete` reads `_freeSize`. -/
  | readFreeSize : Label ι
  /-- `Release` stores `_isClose`. -/
  | close : Label ι
  /-- `Release` notifies all workers. -/
  | notifyAll : Label ι

/-- The steps, in any interleaving. -/
inductive Step [Fintype ι] : ThreadPool ι → Label ι → ThreadPool ι → Prop
  | push {s : ThreadPool ι} : s.Unlocked → Step s .push s.push
  | notifyOne {s : ThreadPool ι} {worker : ι → Worker} : 0 < s.notifying →
      NotifyOne .asleep .notified s.worker worker →
      Step s .notifyOne { s with worker := worker, notifying := s.notifying - 1 }
  | enter {s : ThreadPool ι} {i : ι} : s.worker i = .outside ∨ s.worker i = .notified →
      s.Unlocked → Step s (.enter i) (s.enter i)
  | sleep {s : ThreadPool ι} {i : ι} : s.worker i = .blocking → Step s (.sleep i) (s.move i .asleep)
  | spurious {s : ThreadPool ι} {i : ι} : s.worker i = .asleep →
      Step s (.spurious i) (s.move i .notified)
  | decrement {s : ThreadPool ι} {i : ι} {task : TaskId} : s.worker i = .taken task →
      Step s (.decrement i) { s.move i (.running task) with freeSize := s.freeSize - 1 }
  | finish {s : ThreadPool ι} {i : ι} {task : TaskId} : s.worker i = .running task →
      Step s (.finish i) { s.move i .ran with finished := s.finished ++ [task] }
  | increment {s : ThreadPool ι} {i : ι} : s.worker i = .ran →
      Step s (.increment i) { s.move i .outside with freeSize := s.freeSize + 1 }
  | wait {s : ThreadPool ι} : Step s .wait { s with waiting := .testing s.committed }
  | readEmpty {s : ThreadPool ι} {k : ℕ} : s.waiting = .testing k →
      Step s .readEmpty (s.readEmpty k)
  | readFreeSize {s : ThreadPool ι} {k : ℕ} : s.waiting = .sawEmpty k →
      Step s .readFreeSize (s.readFreeSize k)
  | close {s : ThreadPool ι} : s.isClose = false →
      Step s .close { s with isClose := true, releasing := .stored }
  | notifyAll {s : ThreadPool ι} : s.releasing = .stored →
      Step s .notifyAll
        { s with worker := Condvar.notifyAll .asleep .notified s.worker, releasing := .joining }

/-- The states the threads can reach. -/
def Reachable [Fintype ι] (s : ThreadPool ι) : Prop := ∃ ls : List (Label ι), Lts.Run Step init ls s

end ThreadPool

end MToolkit

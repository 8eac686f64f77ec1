import MToolkit.MessageQueue.Queue

/-!
# Lost wake-ups of the message queue

`Next` waits through the wrapper, on a condition variable that the wrapper's `PushBack`
notifies. `Enqueue` has to keep the messages in order and so inserts in the middle,
through the inherited `insert`, which notifies nobody. Hence a consumer that went to sleep
on the empty queue sleeps on when a message is enqueued. A run is free of this exactly if
nobody ever sleeps while a message is enqueued
(`MToolkit.MessageQueue.no_lost_wakeup_iff`).
-/

namespace MToolkit

namespace MessageQueue

open Lts

variable {ι : Type} [DecidableEq ι] {s s' : MessageQueue ι}

/-- If this step enqueues, nobody sleeps in `Next`. -/
def Quiet (s : MessageQueue ι) : Label ι → Prop
  | .enqueue _ => ∀ i, s.list.waiter i ≠ .asleep
  | _ => True

/-- A step that does not lead to a lost wake-up. -/
def SafeStep (s : MessageQueue ι) (l : Label ι) (s' : MessageQueue ι) : Prop :=
  Step s l s' ∧ ¬s'.list.Lost

/-- A step that enqueues only while nobody sleeps. -/
def QuietStep (s : MessageQueue ι) (l : Label ι) (s' : MessageQueue ι) : Prop :=
  Step s l s' ∧ Quiet s l

omit [DecidableEq ι] in
/-- **`Enqueue` loses a wake-up exactly if somebody sleeps.** -/
theorem lost_enqueue_iff (message : MessageId) :
    (s.enqueue message).list.Lost ↔ ∃ i, s.list.waiter i = .asleep :=
  LockList.lost_insert_iff (s.position_le message) message

/-- **One step** loses a wake-up exactly if it enqueues while somebody sleeps. -/
theorem Step.lost_iff {l : Label ι} (hstep : Step s l s') (h : ¬s.list.Lost) :
    ¬s'.list.Lost ↔ Quiet s l := by
  cases hstep with
  | enqueue message =>
    rw [lost_enqueue_iff, not_exists]
    rfl
  | next => exact iff_of_true (LockList.not_lost_waitPopFront h _) trivial
  | reacquire => exact iff_of_true (LockList.not_lost_waitPopFront h _) trivial
  | @spurious i hi =>
    refine iff_of_true ?_ trivial
    rintro ⟨hne, -, -⟩
    exact h ⟨hne, i, hi⟩
  | setWhen => exact iff_of_true h trivial

/-- **When no wake-up is lost.** A run of producers and consumers, in any interleaving,
passes through no state in which a message is queued while a consumer sleeps
un-notified, exactly if no message is ever enqueued while a consumer sleeps. -/
theorem no_lost_wakeup_iff {when : MessageId → UInt64} {ls : List (Label ι)}
    {u : MessageQueue ι} :
    Run SafeStep (init when) ls u ↔ Run QuietStep (init when) ls u := by
  refine Run.iff_of_invariant (I := fun s => ¬s.list.Lost) ?_ ?_ LockList.not_lost_init
  · exact fun hs => and_congr_right fun hl => hl.lost_iff hs
  · exact fun _ hl => hl.2

/-- **A wake-up that is lost**: a consumer calls `Next` on the empty queue, then a message
is enqueued. -/
theorem enqueue_loses_wakeup :
    ∃ u : MessageQueue (Fin 1), Run Step (init fun _ => 0) [.next 0, .enqueue 0] u ∧
      u.list.items = [0] ∧ u.list.waiter 0 = .asleep ∧ u.list.Lost :=
  ⟨_, .cons (.next rfl) (.single (.enqueue 0)), rfl, rfl, List.cons_ne_nil _ _, 0, rfl⟩

end MessageQueue

end MToolkit

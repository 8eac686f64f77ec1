import MToolkit.MessageQueue.Looper
import MToolkit.MessageQueue.Wakeup

/-!
# Destroying the looper

The destructor sets `_running` to false and joins the looper's thread, which tests
`_running` between messages. While there are no messages it does not get there: the wait in
`Next` is for a message, and neither the store nor anything else the destructor does ends
it. After the store the thread does not end up asleep on the empty list if it has still a
message to take or will test `_running` before it calls `Next` again, and only then
(`MToolkit.Looper.destroy_careful`). That a message lies there does not wake a thread that
sleeps already, but this is the loss of another wake-up
(`MToolkit.MessageQueue.no_lost_wakeup_iff`).
-/

namespace MToolkit

namespace Looper

open Lts

variable {s s' : Looper}

/-- **A destruction that hangs**: the destructor joins, and the thread sleeps in `Next` on
an empty list, un-notified. -/
def Hangs (s : Looper) : Prop :=
  s.destroying = .joining ∧ s.looping = .next ∧ s.queue.list.waiter () = .asleep ∧
    s.queue.list.items = []

/-- If this step is the store of the destructor and the thread is in `Next`, there is a
message. -/
def Careful (s : Looper) : Label → Prop
  | .store => s.looping = .next → s.queue.list.items ≠ []
  | _ => True

/-- A step that is careful about when the destructor stores. -/
def CarefulStep (s : Looper) (l : Label) (s' : Looper) : Prop := Step s l s' ∧ Careful s l

/-- The looper is on its way out: after the store the thread is not in `Next` unless there
is a message for it. -/
def Leaving (s : Looper) : Prop :=
  s.destroying ≠ .outside →
    s.running = false ∧ (s.looping = .next → s.queue.list.items ≠ [])

theorem Leaving.not_hangs (h : Leaving s) : ¬s.Hangs := by
  rintro ⟨hjoin, hnext, -, hnil⟩
  exact (h (by simp [hjoin])).2 hnext hnil

/-- A pop that does not go back to sleep takes the thread out of `Next`. -/
theorem next_looping (h : s.queue.list.items ≠ []) : s.next.looping ≠ .next := by
  obtain ⟨message, items, hcons⟩ := List.exists_cons_of_ne_nil h
  rw [next, MessageQueue.next_of_cons hcons]
  exact nofun

/-- **One careful step** keeps the looper on its way out. -/
theorem Step.leaving {l : Label} (hstep : Step s l s') (hcare : Careful s l) (h : Leaving s) :
    Leaving s' := by
  intro hdes
  cases hstep with
  | send => exact h hdes
  | enqueue message =>
    exact ⟨(h hdes).1, fun _ => LockList.insert_items_ne_nil (s.queue.position_le message) message⟩
  | tick => exact h hdes
  | test =>
    refine ⟨(h hdes).1, fun hnext => ?_⟩
    rw [Looper.test, (h hdes).1] at hnext
    exact absurd hnext nofun
  | next hnext =>
    exact ⟨(h hdes).1, fun hnext' => absurd hnext' (next_looping ((h hdes).2 hnext))⟩
  | spurious => exact h hdes
  | run => exact ⟨(h hdes).1, nofun⟩
  | handled => exact ⟨(h hdes).1, nofun⟩
  | exit => exact ⟨rfl, (h hdes).2⟩
  | store => exact ⟨rfl, hcare⟩
  | join hstored => exact h (by simp [hstored])

/-- **A thread in `Next` on an empty list misses the store.** It sleeps, now or when it gets
there, and the destructor joins it. -/
theorem Step.hangs (hstep : Step s .store s') (hcare : ¬Careful s .store) :
    ∃ ls u, Run Step s' ls u ∧ u.Hangs := by
  obtain ⟨hnext, hnil⟩ := Classical.not_imp.mp hcare
  have hnil := not_not.mp hnil
  cases hstep with
  | store =>
    by_cases hasleep : s.queue.list.waiter () = .asleep
    · exact ⟨_, _, .single (.join rfl), rfl, hnext, hasleep, hnil⟩
    · refine ⟨_, _, .cons (.next hnext hasleep) (.single (.join rfl)), rfl, ?_, ?_, ?_⟩ <;>
        simp [Looper.next, MessageQueue.next_of_nil, hnil]

/-- **When a looper can be destroyed.** In a run in which the destructor, when it stores,
finds the thread outside `Next` or a message in the list, it never joins a thread that
sleeps on the empty list. Whenever it finds neither, the threads can go on to a state in
which it does. -/
theorem destroy_careful (ls : List Label) (u : Looper) :
    (Run CarefulStep init ls u → ¬u.Hangs) ∧
      ∀ u', Step u .store u' → ¬Careful u .store → ∃ ms v, Run Step u' ms v ∧ v.Hangs := by
  constructor
  · intro hrun
    have hu : Leaving u :=
      hrun.invariant (fun h hl => hl.1.leaving hl.2 h) (fun h => absurd rfl h)
    exact hu.not_hangs
  · intro u' hstep hcare
    exact hstep.hangs hcare

/-- **A destruction that hangs**: the looper's thread sleeps, there being no messages, when
the destructor runs. -/
theorem destroy_hangs :
    ∃ u : Looper, Run Step init [.test, .next, .store, .join] u ∧ u.Hangs :=
  ⟨_, .cons (.test rfl) (.cons (.next rfl nofun) (.cons (.store rfl) (.single (.join rfl)))),
    rfl, rfl, rfl, rfl⟩

end Looper

end MToolkit

import MToolkit.Actor.Active

/-!
# Stopping an active object

`Stop` wakes the thread with an empty event only if the queue was empty when it looked, and
by then the thread may be anywhere between its test of `_running` and its sleep. That is
enough, because the thread takes one more event at most: an event that `Stop` has seen, or
has pushed, is there until the thread takes it, after which it tests `_running`
(`MToolkit.Active.stop_safe`). That a thread does not sleep beside an event is the
business of the queue (`MToolkit.Deque.Attended`).
-/

namespace MToolkit

/-- One for a thread that has tested `_running` and not yet called `Dispatch`. -/
def Working.upcoming {α : Type} : Working α → ℕ
  | .popping => 1
  | .popped _ => 1
  | _ => 0

theorem Working.upcoming_le_one {α : Type} (w : Working α) : w.upcoming ≤ 1 := by
  cases w <;> simp [upcoming]

namespace Active

open Lts

variable {α : Type} {eventEmpty : α} {s s' : Active α}

/-- **The thread can be stopped.** -/
structure Stoppable (s : Active α) : Prop where
  attended : s.queue.Attended
  inPop : s.queue.waiter () ≠ .running → s.working = .popping
  stopped : s.stopping ≠ .outside → s.running = false
  /-- Before `Stop`, nothing is counted. -/
  uncounted : s.stopping = .outside → s.dispatched = 0
  /-- After the store, one call of `Dispatch` may come, or has come. -/
  few : s.stopping ≠ .outside → s.dispatched + s.working.upcoming ≤ 1
  /-- When `Stop` joins the thread, this has an event to take. -/
  fed : s.stopping = .joining → s.working = .popping → s.queue.items ≠ []

theorem stoppable_init : Stoppable (init : Active α) where
  attended := Deque.attended_init
  inPop := fun h => absurd rfl h
  stopped := fun h => absurd rfl h
  uncounted := fun _ => rfl
  few := fun h => absurd rfl h
  fed := nofun

/-- Nobody joins a thread that sleeps. -/
theorem Stoppable.not_asleep (h : Stoppable s) (hjoin : s.stopping = .joining) :
    s.queue.waiter () ≠ .asleep := by
  intro hasleep
  have hpop : s.working = .popping := h.inPop (by rw [hasleep]; exact nofun)
  obtain ⟨⟨⟩, hi⟩ := h.attended.notified (h.fed hjoin hpop) ⟨(), hasleep⟩
  rw [hasleep] at hi
  exact absurd hi nofun

theorem Stoppable.dispatched_le (h : Stoppable s) : s.dispatched ≤ 1 := by
  by_cases hout : s.stopping = .outside
  · rw [h.uncounted hout]
    exact Nat.zero_le _
  · have hle := h.few hout
    omega

/-- **An event is pushed**, by `Stop` or by somebody else. -/
theorem Stoppable.push (h : Stoppable s) {queue : Deque Unit α} (hattended : queue.Attended)
    (hwaiter : queue.waiter () ≠ .running → s.queue.waiter () ≠ .running)
    (hne : queue.items ≠ []) {stopping : Stopping}
    (hstopping : stopping = .outside ↔ s.stopping = .outside) :
    Stoppable { s with queue := queue, stopping := stopping } where
  attended := hattended
  inPop := fun hin => h.inPop (hwaiter hin)
  stopped := fun hstop => h.stopped (hstopping.not.mp hstop)
  uncounted := fun hout => h.uncounted (hstopping.mp hout)
  few := fun hstop => h.few (hstopping.not.mp hstop)
  fed := fun _ _ => hne

/-- **The thread takes an event**, and does not come back for another once it is to stop. -/
theorem Stoppable.pop (h : Stoppable s) (hpop : s.working = .popping) : Stoppable s.pop := by
  have hattended : s.pop.queue.Attended := h.attended.pop ()
  have hfew : s.stopping ≠ .outside → s.dispatched + 1 ≤ 1 := by
    simpa [hpop, Working.upcoming] using h.few
  rcases hitems : s.queue.items with _ | ⟨event, items⟩
  · rw [pop_of_nil hitems] at hattended ⊢
    exact ⟨hattended, fun _ => rfl, h.stopped, h.uncounted, hfew,
      fun hjoin _ => absurd hitems (h.fed hjoin hpop)⟩
  · rw [pop_of_cons hitems] at hattended ⊢
    refine ⟨hattended, fun hin => absurd ?_ hin, h.stopped, h.uncounted, hfew, nofun⟩
    exact Function.update_self () Waiter.running s.queue.waiter

/-- **The thread goes on**, outside `Pop`. -/
theorem Stoppable.go (h : Stoppable s) (hpop : s.working ≠ .popping) {w : Working α}
    {dispatched : ℕ} (hw : s.stopping ≠ .outside → w ≠ .popping)
    (huncounted : s.stopping = .outside → dispatched = s.dispatched)
    (hfew : s.stopping ≠ .outside →
      dispatched + w.upcoming ≤ s.dispatched + s.working.upcoming) :
    Stoppable { s with working := w, dispatched := dispatched } where
  attended := h.attended
  inPop := fun hin => absurd (h.inPop hin) hpop
  stopped := h.stopped
  uncounted := fun hout => (huncounted hout).trans (h.uncounted hout)
  few := fun hstop => (hfew hstop).trans (h.few hstop)
  fed := fun hjoin hpop' => absurd hpop' (hw (by rw [hjoin]; exact nofun))

/-- **Every step** leaves the thread stoppable. -/
theorem Step.stoppable {l : Label α} (hstep : Step eventEmpty s l s') (h : Stoppable s) :
    Stoppable s' := by
  cases hstep with
  | pushBack hpush =>
    refine h.push (h.attended.pushBack hpush) ?_ (by rw [hpush.1]; simp) Iff.rfl
    exact (hpush.2.eq_iff (by decide) (by decide) ()).not.mp
  | pushFront hpush =>
    refine h.push (h.attended.pushFront hpush) ?_ (by rw [hpush.1]; simp) Iff.rfl
    exact (hpush.2.eq_iff (by decide) (by decide) ()).not.mp
  | test hw =>
    refine h.go (by rw [hw]; exact nofun) (fun hstop => ?_) (fun _ => rfl) fun hstop => ?_
    -- once `Stop` has stored `false`, the loop ends at its condition
    · rw [h.stopped hstop]
      exact nofun
    · rw [h.stopped hstop]
      exact Nat.add_le_add_left (Nat.zero_le _) _
  | pop hw => exact h.pop hw
  | spurious hi =>
    have hpop : s.working = .popping := h.inPop (by rw [hi]; exact nofun)
    exact ⟨h.attended.wake hi, fun _ => hpop, h.stopped, h.uncounted, h.few, h.fed⟩
  | dispatch hw =>
    refine h.go (by rw [hw]; exact nofun) (fun _ => nofun) (fun hout => if_pos hout)
      fun hstop => ?_
    rw [if_neg hstop, hw]
    exact le_rfl
  | returned hw =>
    refine h.go (by rw [hw]; exact nofun) (fun _ => nofun) (fun _ => rfl) fun _ => ?_
    exact Nat.add_le_add_left (Nat.zero_le _) _
  | store hout =>
    refine ⟨h.attended, h.inPop, fun _ => rfl, nofun, fun _ => ?_, nofun⟩
    -- before `Stop` nothing is counted, and one event may be on its way
    change s.dispatched + s.working.upcoming ≤ 1
    rw [h.uncounted hout, Nat.zero_add]
    exact s.working.upcoming_le_one
  | readSize hs =>
    have hin : s.stopping ≠ .outside := by rw [hs]; exact nofun
    rw [Active.readSize]
    split
    · exact ⟨h.attended, h.inPop, fun _ => h.stopped hin, nofun, fun _ => h.few hin, nofun⟩
    · next hsize =>
      -- the queue is not empty, so nothing keeps the thread asleep in `Pop`
      refine ⟨h.attended, h.inPop, fun _ => h.stopped hin, nofun, fun _ => h.few hin, ?_⟩
      exact fun _ _ hnil => hsize (List.length_eq_zero_iff.mpr hnil)
  | pushEmpty hs hpush =>
    refine h.push (h.attended.pushBack hpush) ?_ (by rw [hpush.1]; simp) ?_
    · exact (hpush.2.eq_iff (by decide) (by decide) ()).not.mp
    · rw [hs]
      exact iff_of_false nofun nofun

/-- **`Stop` does not hang, and in time.** In a run of the thread that `Start` has started,
of any number of threads that push events, and of one that calls `Stop`: `Stop` never joins
the thread while that sleeps in `Pop` un-notified, on an empty queue or not, and the thread
calls `Dispatch` at most once after `Stop` has set `_running` to false. -/
theorem stop_safe {ls : List (Label α)} (hrun : Run (Step eventEmpty) init ls s) :
    ¬(s.stopping = .joining ∧ s.queue.waiter () = .asleep) ∧ s.dispatched ≤ 1 := by
  have h : Stoppable s := hrun.invariant (fun h hstep => hstep.stoppable h) stoppable_init
  exact ⟨fun ⟨hjoin, hasleep⟩ => h.not_asleep hjoin hasleep, h.dispatched_le⟩

/-- The thread sleeps on the empty queue when `Stop` is called, and another thread pushes an
event after `Stop` has looked: the thread takes this event, and the empty one is left. -/
theorem stop_safe_crossing :
    ∃ s : Active ℕ,
      Run (Step 0) init [.test, .pop, .store, .readSize, .pushFront 7, .pushEmpty, .pop, .dispatch,
        .returned, .test] s ∧
        s.stopping = .joining ∧ s.queue.items = [0] ∧ s.dispatched = 1 ∧
        ¬(s.stopping = .joining ∧ s.queue.waiter () = .asleep) := by
  have hrun : ∃ s : Active ℕ,
      Run (Step 0) init [.test, .pop, .store, .readSize, .pushFront 7, .pushEmpty, .pop, .dispatch,
        .returned, .test] s ∧ s.stopping = .joining ∧ s.queue.items = [0] ∧ s.dispatched = 1 :=
    ⟨_, .cons (.test rfl) (.cons (.pop rfl nofun) (.cons (.store rfl) (.cons (.readSize rfl)
      (.cons (.pushFront (Deque.pushFront_wake (i := ()) rfl 7))
        (.cons (.pushEmpty rfl (Deque.pushBack_none (by decide) 0)) (.cons (.pop rfl nofun)
          (.cons (.dispatch rfl) (.cons (.returned rfl) (.single (.test rfl)))))))))),
      rfl, rfl, rfl⟩
  obtain ⟨s, hrun, hjoin, hitems, hone⟩ := hrun
  exact ⟨s, hrun, hjoin, hitems, hone, (stop_safe hrun).1⟩

end Active

end MToolkit

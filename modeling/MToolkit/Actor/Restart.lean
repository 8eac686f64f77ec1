import MToolkit.Actor.Stop

/-!
# Active objects that are started again

An `Active` over its whole life (`actor/active.cpp`): one thread calls `Start` and `Stop` in turn,
as often as it likes and `Stop` also where there is no thread to be joined, as the destructor does;
others push events all the time. The thread that a `Start` has started finds the queue as the one
before has left it.

* An event is dispatched once or waits its turn, over all stops and starts; those that are pushed at
  the back keep their order.
* Each `Stop` is followed by one call of `Dispatch` at most, and can return by the steps of the
  thread it joins.

A `Start` while there is a thread is no step: the thread object would be destroyed without having
been joined, which ends the process.
-/

namespace MToolkit

/-- The event that the thread has taken from the queue and not yet dispatched. -/
def Working.event {α : Type} : Working α → Option α
  | .popped event => some event
  | _ => none

namespace Active

open Lts Census

/-- An `Active`, with what has passed through it. -/
structure Life (α : Type) where
  active : Active α
  /-- What has been pushed at the back, by `Stop` as well. -/
  pushed : List α
  /-- What has been pushed at the front. -/
  pushedFront : List α
  /-- What `Dispatch` has been called with. -/
  handled : List α

namespace Life

variable {α : Type} {eventEmpty : α} {s s' : Life α} {active : Active α}

/-- An `Active` that has been constructed: there is no thread yet. -/
def init : Life α where
  active := { Active.init with working := .exited }
  pushed := []
  pushedFront := []
  handled := []

/-- What happens to the `Active`. -/
inductive Label (α : Type) where
  /-- A step of a thread that uses it, or of its own. -/
  | step (l : Active.Label α) : Label α
  /-- `Stop` returns. -/
  | joined : Label α
  /-- `Start` -/
  | start : Label α

/-- What a step adds to the records. -/
def record (s : Life α) (eventEmpty : α) (l : Active.Label α) (active : Active α) : Life α :=
  match l with
  | .pushBack event => { s with active := active, pushed := s.pushed ++ [event] }
  | .pushFront event => { s with active := active, pushedFront := s.pushedFront ++ [event] }
  | .pushEmpty => { s with active := active, pushed := s.pushed ++ [eventEmpty] }
  | .dispatch =>
    { s with active := active, handled := s.handled ++ s.active.working.event.toList }
  | _ => { s with active := active }

/-- The steps, in any interleaving, where `eventEmpty` is `StdEventPtr[EVENT_EMPTY]`. Where there is
no thread any more, or none yet, `_work_thread` is a null pointer and nothing is joined. -/
inductive Step (eventEmpty : α) : Life α → Label α → Life α → Prop
  | step {s : Life α} {l : Active.Label α} {active : Active α} :
      Active.Step eventEmpty s.active l active → Step eventEmpty s (.step l)
        (s.record eventEmpty l active)
  | joined {s : Life α} : s.active.stopping = .joining → s.active.working = .exited →
      Step eventEmpty s .joined
        { s with active := { s.active with stopping := .outside, dispatched := 0 } }
  | start {s : Life α} : s.active.stopping = .outside → s.active.working = .exited →
      Step eventEmpty s .start
        { s with active := { s.active with running := true, working := .testing } }

/-- The events that have been dispatched, the one on its way and those in the queue. -/
def passed (s : Life α) : List α :=
  s.handled ++ s.active.working.event.toList ++ s.active.queue.items

/-- **The `Active` keeps what it is given.** -/
structure Sound (s : Life α) : Prop where
  stoppable : Stoppable s.active
  conserved : (s.passed : Multiset α) = s.pushed + s.pushedFront
  /-- Events that are never pushed at the front stay in the order of their pushes. -/
  order : ∀ p : α → Bool, (∀ event ∈ s.pushedFront, p event = false) →
    s.passed.filter p = s.pushed.filter p

theorem sound_init : Sound (init : Life α) where
  stoppable := ⟨Deque.attended_init, fun h => absurd rfl h, fun h => absurd rfl h, fun _ => rfl,
    fun h => absurd rfl h, nofun⟩
  conserved := rfl
  order _ _ := rfl

/-- A step that pushes nothing and changes **nothing of what has passed**. -/
theorem Sound.keep (h : Sound s) (hstoppable : Stoppable s'.active) (hpassed : s'.passed = s.passed)
    (hpushed : s'.pushed = s.pushed) (hfront : s'.pushedFront = s.pushedFront) : Sound s' where
  stoppable := hstoppable
  conserved := by rw [hpassed, hpushed, hfront, h.conserved]
  order p hp := by
    rw [hpassed, hpushed]
    exact h.order p (hfront ▸ hp)

/-- **An event at the back** comes last. -/
theorem Sound.back (h : Sound s) {event : α} (hstoppable : Stoppable active)
    (hworking : active.working = s.active.working)
    (hitems : active.queue.items = s.active.queue.items ++ [event]) :
    Sound { s with active := active, pushed := s.pushed ++ [event] } := by
  have hpassed : Life.passed { s with active := active, pushed := s.pushed ++ [event] } =
      s.passed ++ [event] := by
    rw [passed, hworking, hitems, ← List.append_assoc]
    rfl
  refine ⟨hstoppable, ?_, fun p hp => ?_⟩
  · rw [hpassed, ← Multiset.coe_add, h.conserved, ← Multiset.coe_add, add_right_comm]
  · rw [hpassed, List.filter_append, List.filter_append, h.order p hp]

/-- **An event at the front** passes those in the queue, but none of the others. -/
theorem Sound.front (h : Sound s) {event : α} (hstoppable : Stoppable active)
    (hworking : active.working = s.active.working)
    (hitems : active.queue.items = event :: s.active.queue.items) :
    Sound { s with active := active, pushedFront := s.pushedFront ++ [event] } := by
  have hpassed : Life.passed { s with active := active, pushedFront := s.pushedFront ++ [event] } =
      s.handled ++ s.active.working.event.toList ++ event :: s.active.queue.items := by
    rw [passed, hworking, hitems]
  refine ⟨hstoppable, ?_, fun p hp => ?_⟩
  · have hconserved := h.conserved
    rw [passed, ← Multiset.coe_add] at hconserved
    rw [hpassed, ← Multiset.coe_add, ← Multiset.cons_coe, Multiset.add_cons, hconserved, coe_snoc,
      Multiset.add_cons]
  · have hevent : p event = false := hp event (List.mem_append_right _ (List.mem_singleton_self _))
    rw [hpassed, ← h.order p fun e he => hp e (List.mem_append_left _ he), passed]
    simp [hevent]

/-- **Every step** keeps what it is given. -/
theorem Step.sound {l : Label α} (hstep : Step eventEmpty s l s') (h : Sound s) : Sound s' := by
  cases hstep with
  | step hactive =>
    have hstoppable := hactive.stoppable h.stoppable
    cases hactive with
    | pushBack hpush => exact h.back hstoppable rfl hpush.1
    | pushFront hpush => exact h.front hstoppable rfl hpush.1
    | pushEmpty _ hpush => exact h.back hstoppable rfl hpush.1
    | test hw =>
      refine h.keep hstoppable ?_ rfl rfl
      have hevent : s.active.test.working.event = none := by
        rw [test]
        dsimp only
        split <;> rfl
      change s.handled ++ s.active.test.working.event.toList ++ s.active.queue.items = _
      rw [hevent, passed, hw]
      rfl
    | pop hw =>
      refine h.keep hstoppable ?_ rfl rfl
      change s.handled ++ s.active.pop.working.event.toList ++ s.active.pop.queue.items = _
      rcases hitems : s.active.queue.items with _ | ⟨event, items⟩
      · rw [pop_of_nil hitems, passed, hw, hitems]
      · -- the event leaves the queue, and is on its way
        rw [pop_of_cons hitems, passed, hw, hitems]
        simp [Working.event]
    | spurious => exact h.keep hstoppable rfl rfl rfl
    | dispatch hw =>
      refine h.keep hstoppable ?_ rfl rfl
      change s.handled ++ s.active.working.event.toList ++ [] ++ s.active.queue.items = _
      rw [List.append_nil, passed]
    | returned hw =>
      refine h.keep hstoppable ?_ rfl rfl
      change s.handled ++ [] ++ s.active.queue.items = _
      rw [passed, hw]
      rfl
    | store => exact h.keep hstoppable rfl rfl rfl
    | readSize => exact h.keep hstoppable rfl rfl rfl
  | joined hjoin hw =>
    refine h.keep ⟨h.stoppable.attended, h.stoppable.inPop, fun hstop => absurd rfl hstop,
      fun _ => rfl, fun hstop => absurd rfl hstop, nofun⟩ rfl rfl rfl
  | start hout hw =>
    refine h.keep ⟨h.stoppable.attended, fun hin => ?_, fun hstop => absurd hout hstop,
      h.stoppable.uncounted, fun hstop => absurd hout hstop, fun hjoin => ?_⟩ ?_ rfl rfl
    · -- the thread before has not ended in `Pop`
      have hpop := h.stoppable.inPop hin
      rw [hw] at hpop
      cases hpop
    · exact absurd (hout.symm.trans hjoin) (by simp)
    · rw [passed, passed, hw]
      rfl

/-! ### `Stop` returns -/

/-- A step of the thread that `Stop` joins, or the return of `Stop`. -/
def Label.Joins : Label α → Prop
  | .step .test => True
  | .step .pop => True
  | .step .dispatch => True
  | .step .returned => True
  | .joined => True
  | _ => False

/-- `Stop` **can return** when nobody but the thread takes a step. -/
def Returns (eventEmpty : α) (s : Life α) : Prop :=
  ∃ ls t, (∀ l ∈ ls, Label.Joins l) ∧ Run (Step eventEmpty) s ls t ∧ t.active.stopping = .outside

theorem Returns.of_step {l : Label α} (hstep : Step eventEmpty s l s') (hl : l.Joins)
    (h : Returns eventEmpty s') : Returns eventEmpty s := by
  obtain ⟨ls, t, hls, hrun, ht⟩ := h
  exact ⟨l :: ls, t, List.forall_mem_cons.mpr ⟨hl, hls⟩, .cons hstep hrun, ht⟩

theorem returns_of_exited (hjoin : s.active.stopping = .joining) (hw : s.active.working = .exited) :
    Returns eventEmpty s :=
  ⟨[.joined], _, List.forall_mem_singleton.mpr trivial, .single (.joined hjoin hw), rfl⟩

/-- The thread **leaves the loop** at its next test. -/
theorem returns_of_testing (h : Sound s) (hjoin : s.active.stopping = .joining)
    (hw : s.active.working = .testing) : Returns eventEmpty s := by
  have hrunning := h.stoppable.stopped (by rw [hjoin]; simp)
  refine Returns.of_step (.step (.test hw)) trivial (returns_of_exited ?_ ?_)
  · exact hjoin
  · simp [record, test, hrunning]

theorem returns_of_dispatching (h : Sound s) (hjoin : s.active.stopping = .joining)
    (hw : s.active.working = .dispatching) : Returns eventEmpty s := by
  have hstep : Step eventEmpty s (.step .returned) _ := .step (.returned hw)
  exact Returns.of_step hstep trivial (returns_of_testing (hstep.sound h) hjoin rfl)

theorem returns_of_popped (h : Sound s) (hjoin : s.active.stopping = .joining) {event : α}
    (hw : s.active.working = .popped event) : Returns eventEmpty s := by
  have hstep : Step eventEmpty s (.step .dispatch) _ := .step (.dispatch hw)
  exact Returns.of_step hstep trivial (returns_of_dispatching (hstep.sound h) hjoin rfl)

/-- A thread in `Pop` has an **event to take**. -/
theorem returns_of_popping (h : Sound s) (hjoin : s.active.stopping = .joining)
    (hw : s.active.working = .popping) : Returns eventEmpty s := by
  have hstep : Step eventEmpty s (.step .pop) _ :=
    .step (.pop hw (h.stoppable.not_asleep hjoin))
  obtain ⟨event, items, hitems⟩ := List.exists_cons_of_ne_nil (h.stoppable.fed hjoin hw)
  have hw' : (s.record eventEmpty .pop s.active.pop).active.working = .popped event := by
    simp [record, pop_of_cons hitems]
  exact Returns.of_step hstep trivial (returns_of_popped (hstep.sound h) hjoin hw')

/-- **`Stop` always can return.** -/
theorem returns (h : Sound s) (hjoin : s.active.stopping = .joining) : Returns eventEmpty s := by
  rcases hw : s.active.working with _ | _ | event | _ | _
  · exact returns_of_testing h hjoin hw
  · exact returns_of_popping h hjoin hw
  · exact returns_of_popped h hjoin hw
  · exact returns_of_dispatching h hjoin hw
  · exact returns_of_exited hjoin hw

/-- **The lives of an active object.** In a run of one thread that calls `Start` and `Stop` as often
as it likes, of any number of threads that push events, and of the threads that are started: every
event that has been pushed has been dispatched, is on its way or is in the queue, and once only;
events that are never pushed at the front are dispatched in the order of their pushes; `Dispatch` is
called at most once after a `Stop` has set `_running` to false; and a `Stop` that joins the thread
can return by the steps of this thread. -/
theorem conserves_events {ls : List (Label α)} (hrun : Run (Step eventEmpty) init ls s) :
    (s.passed : Multiset α) = s.pushed + s.pushedFront ∧
      (∀ p : α → Bool, (∀ event ∈ s.pushedFront, p event = false) →
        s.passed.filter p = s.pushed.filter p) ∧
      s.active.dispatched ≤ 1 ∧
      (s.active.stopping = .joining → Returns eventEmpty s) := by
  have h : Sound s := hrun.invariant (fun h hstep => hstep.sound h) sound_init
  exact ⟨h.conserved, h.order, h.stoppable.dispatched_le, returns h⟩

/-- The thread sleeps when `Stop` is called, takes the empty event and ends; the next one finds what
has been pushed meanwhile. -/
theorem conserves_events_again :
    ∃ s : Life ℕ,
      Run (Step 0) init [.start, .step .test, .step .pop, .step .store, .step .readSize,
        .step .pushEmpty, .step .pop, .step .dispatch, .step .returned, .step .test, .joined,
        .step (.pushBack 7), .start, .step .test, .step .pop, .step .dispatch] s ∧
        s.handled = [0, 7] ∧ (s.passed : Multiset ℕ) = s.pushed + s.pushedFront := by
  have hrun : ∃ s : Life ℕ,
      Run (Step 0) init [.start, .step .test, .step .pop, .step .store, .step .readSize,
        .step .pushEmpty, .step .pop, .step .dispatch, .step .returned, .step .test, .joined,
        .step (.pushBack 7), .start, .step .test, .step .pop, .step .dispatch] s ∧
        s.handled = [0, 7] :=
    ⟨_, .cons (.start rfl rfl) (.cons (.step (.test rfl)) (.cons (.step (.pop rfl (by decide)))
      (.cons (.step (.store rfl)) (.cons (.step (.readSize rfl))
        (.cons (.step (.pushEmpty rfl (Deque.pushBack_wake (i := ()) rfl 0)))
          (.cons (.step (.pop rfl (by decide))) (.cons (.step (.dispatch rfl))
            (.cons (.step (.returned rfl)) (.cons (.step (.test rfl)) (.cons (.joined rfl rfl)
              (.cons (.step (.pushBack (Deque.pushBack_none (by decide) 7)))
                (.cons (.start rfl rfl) (.cons (.step (.test rfl))
                  (.cons (.step (.pop rfl (by decide)))
                    (.single (.step (.dispatch rfl))))))))))))))))), rfl⟩
  obtain ⟨s, hrun, hhandled⟩ := hrun
  exact ⟨s, hrun, hhandled, (conserves_events hrun).1⟩

end Life

end Active

end MToolkit

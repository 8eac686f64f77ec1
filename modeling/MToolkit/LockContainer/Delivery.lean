import MToolkit.LockContainer.LockQueue

/-!
# Delivery, once and in order

As long as nobody calls a timed pop, the clients of a locked queue remove what they have
pushed, in the order of the pushes, each element by one pop and each pop at most one
element, however many of them a push wakes and whoever gets there first; and nobody sleeps
while there is an element (`MToolkit.Clients.exactly_once`).

That no two pops remove the same element is in the order of the removals; that no pop
removes two is in the numbers of the pops, and for this the threads that wait must have
numbers of their own (`MToolkit.Clients.Owns`).
-/

namespace MToolkit

namespace Clients

open Lts

variable {ι α : Type} {s s' : Clients ι α} {i : ι}

/-- The pops that have removed an element. -/
def served (s : Clients ι α) : List ℕ := s.removed.map Prod.fst

/-- Thread `i` is in a pop that no other thread is in, and that has not yet removed an
element. -/
structure Owns (s : Clients ι α) (i : ι) : Prop where
  called : s.call i < s.calls
  unserved : s.call i ∉ s.served
  alone : ∀ j, s.queue.waiter j ≠ .running → s.call j = s.call i → j = i

/-- **The queue delivers.** -/
structure Delivering (s : Clients ι α) : Prop where
  /-- What has been removed is what was pushed first, in order. -/
  order : s.removed.map Prod.snd ++ s.queue.items = s.pushed
  /-- No pop has removed two elements. -/
  once : s.served.Nodup
  called : ∀ call ∈ s.served, call < s.calls
  owns : ∀ i, s.queue.waiter i ≠ .running → s.Owns i
  notLost : ¬s.queue.Lost

/-- What a thread owns it keeps when others are notified. -/
theorem Owns.notify (h : s.Owns i) {queue : LockQueue ι α} {pushed : List α}
    (hwaiter : ∀ j, queue.waiter j ≠ .running → s.queue.waiter j ≠ .running) :
    Owns { s with queue := queue, pushed := pushed } i :=
  ⟨h.called, h.unserved, fun j hj => h.alone j (hwaiter j hj)⟩

theorem delivering_init : Delivering (init : Clients ι α) where
  order := rfl
  once := .nil
  called := nofun
  owns := fun _ hi => absurd rfl hi
  notLost := LockList.not_lost_init

/-- **A push** wakes whoever sleeps. -/
theorem Delivering.push (h : Delivering s) (value : α) : Delivering (s.push value) where
  order := by
    change s.removed.map Prod.snd ++ (s.queue.items ++ [value]) = s.pushed ++ [value]
    rw [← List.append_assoc, h.order]
  once := h.once
  called := h.called
  owns := by
    have hwaiter : ∀ j, (s.push value).queue.waiter j ≠ .running →
        s.queue.waiter j ≠ .running :=
      fun j => (Condvar.notifyAll_eq_iff (by decide) (by decide)).not.mp
    intro i hi
    exact (h.owns i (hwaiter i hi)).notify hwaiter
  notLost := LockList.not_lost_pushBack value

/-- A pop is served when it takes an element. -/
theorem served_take (s : Clients ι α) (i : ι) (value : Option α) (queue : LockQueue ι α) :
    (s.take i value queue).served = s.served ++ (value.map fun _ => s.call i).toList := by
  rw [served, take, List.map_append]
  cases value <;> rfl

/-- **A critical section in a pop**: the thread takes the front element, if there is one,
and sleeps at most if there is none. -/
theorem Delivering.take (h : Delivering s) (hi : s.Owns i) {value : Option α}
    {queue : LockQueue ι α} (hitems : s.queue.items = value.toList ++ queue.items)
    (hwaiter : ∀ j ≠ i, queue.waiter j ≠ .running → s.queue.waiter j ≠ .running)
    (hself : queue.waiter i ≠ .running → value = none) (hlost : ¬queue.Lost) :
    Delivering (s.take i value queue) where
  order := by
    -- what is taken is the front of the queue, so the order stays
    have htaken : (value.map (Prod.mk (s.call i))).toList.map Prod.snd = value.toList := by
      cases value <;> rfl
    change (s.removed ++ _).map Prod.snd ++ queue.items = s.pushed
    rw [List.map_append, htaken, List.append_assoc, ← hitems, h.order]
  once := by
    rw [served_take]
    cases value with
    | none => simpa using h.once
    | some value =>
      refine List.nodup_append.mpr ⟨h.once, List.pairwise_singleton _ _, fun call hcall c hc => ?_⟩
      obtain rfl : c = s.call i := List.mem_singleton.mp hc
      rintro rfl
      exact hi.unserved hcall
  called := by
    intro call hcall
    rw [served_take] at hcall
    rcases List.mem_append.mp hcall with hcall | hcall
    · exact h.called call hcall
    · obtain ⟨_, -, rfl⟩ := Option.map_eq_some_iff.mp (Option.mem_toList.mp hcall)
      exact hi.called
  owns := by
    -- a thread that still sleeps has a call of its own
    have halone : ∀ j, queue.waiter j ≠ .running → s.call j = s.call i → j = i := by
      intro j hj hcall
      by_contra hne
      exact hne (hi.alone j (hwaiter j hne hj) hcall)
    intro j hj
    by_cases hji : j = i
    -- the thread goes back to sleep only if it has taken nothing
    · subst hji
      refine ⟨hi.called, ?_, halone⟩
      rw [served_take, hself hj, Option.map_none, Option.toList_none, List.append_nil]
      exact hi.unserved
    · have hown := h.owns j (hwaiter j hji hj)
      have hother : s.call j ≠ s.call i := fun hcall => hji (halone j hj hcall)
      refine ⟨hown.called, ?_, fun k hk hcall => ?_⟩
      · rw [served_take, List.mem_append, not_or]
        refine ⟨hown.unserved, fun hmem => ?_⟩
        obtain ⟨_, -, hcall⟩ := Option.map_eq_some_iff.mp (Option.mem_toList.mp hmem)
        exact hother hcall.symm
      · by_cases hki : k = i
        · subst hki
          exact absurd hcall.symm hother
        · exact hown.alone k (hwaiter k hki hk) hcall
  notLost := hlost

variable [DecidableEq ι]

/-- **A pop is called.** -/
theorem Delivering.start (h : Delivering s) (hi : s.queue.waiter i = .running) (timed : Bool) :
    Delivering (s.start i timed) ∧ (s.start i timed).Owns i := by
  have hne : ∀ j, s.queue.waiter j ≠ .running → j ≠ i := by
    rintro j hj rfl
    exact hj hi
  refine ⟨⟨h.order, h.once, fun call hcall => Nat.lt_succ_of_lt (h.called call hcall),
    fun j hj => ?_, h.notLost⟩, ⟨?_, ?_, fun j hj hcall => ?_⟩⟩
  · obtain ⟨hcalled, hunserved, halone⟩ := h.owns j hj
    rw [← start_call_of_ne s (hne j hj) timed] at hcalled hunserved
    refine ⟨Nat.lt_succ_of_lt hcalled, hunserved, fun k hk hkj => halone k hk ?_⟩
    rwa [start_call_of_ne s (hne k hk), start_call_of_ne s (hne j hj)] at hkj
  · rw [start_call_self]
    exact Nat.lt_succ_self _
  · rw [start_call_self]
    exact fun hcall => Nat.lt_irrefl _ (h.called _ hcall)
  · rw [start_call_self, start_call_of_ne s (hne j hj)] at hcall
    exact absurd hcall (Nat.ne_of_lt (h.owns j hj).called)

/-- A sleeper wakes up. -/
theorem Delivering.wake (h : Delivering s) (hi : s.queue.waiter i = .asleep) :
    Delivering (s.wake i) := by
  have hwaiter : ∀ j, (s.wake i).queue.waiter j ≠ .running → s.queue.waiter j ≠ .running := by
    intro j hj hrun
    have hji : j ≠ i := by
      rintro rfl
      rw [hi] at hrun
      exact absurd hrun nofun
    exact hj (by simpa [Clients.wake, hji] using hrun)
  refine ⟨h.order, h.once, h.called, fun j hj => (h.owns j (hwaiter j hj)).notify hwaiter, ?_⟩
  rintro ⟨hne, -, -⟩
  exact h.notLost ⟨hne, i, hi⟩

/-- A critical section in a pop that waits as long as there is no element. -/
theorem Delivering.waitAndPop (h : Delivering s) (hi : s.Owns i) :
    Delivering (s.take i (s.queue.waitAndPop i).1 (s.queue.waitAndPop i).2) := by
  have hlost : ¬(s.queue.waitPopFront i).2.Lost := LockList.not_lost_waitPopFront h.notLost i
  have hother : ∀ (w : Waiter) (j : ι), j ≠ i →
      Function.update s.queue.waiter i w j ≠ .running → s.queue.waiter j ≠ .running := by
    intro w j hji hj
    rwa [Function.update_of_ne hji] at hj
  rw [LockQueue.waitAndPop]
  rcases hitems : s.queue.items with _ | ⟨value, items⟩
  · rw [LockList.waitPopFront_of_nil hitems] at hlost ⊢
    exact h.take hi rfl (hother _) (fun _ => rfl) hlost
  · rw [LockList.waitPopFront_of_cons hitems] at hlost ⊢
    refine h.take hi hitems (hother _) (fun hself => ?_) hlost
    exact absurd (Function.update_self ..) hself

omit [DecidableEq ι] in
/-- A pop that does not wait. -/
theorem Delivering.tryPop (h : Delivering s) (hi : s.Owns i)
    (hrun : s.queue.waiter i = .running) :
    Delivering (s.take i s.queue.tryPop.1 s.queue.tryPop.2) := by
  rw [LockQueue.tryPop]
  rcases hitems : s.queue.items with _ | ⟨value, items⟩
  · exact h.take hi rfl (fun _ _ => id) (fun _ => rfl) h.notLost
  · refine h.take hi hitems (fun _ _ => id) (fun hself => absurd hrun hself) ?_
    rintro ⟨-, hasleep⟩
    exact h.notLost ⟨by simp [hitems], hasleep⟩

/-- Not a step of a timed pop. -/
def Untimed : Label ι α → Prop
  | .waiAndPop _ => False
  | .woken _ => False
  | .timeout _ => False
  | _ => True

/-- **Every step but those of timed pops** keeps the queue delivering. -/
theorem Step.delivering {l : Label ι α} (hstep : Step s l s') (hl : Untimed l)
    (h : Delivering s) : Delivering s' := by
  cases hstep with
  | push value => exact h.push value
  | waitAndPop hi =>
    obtain ⟨hstart, howns⟩ := h.start hi false
    exact hstart.waitAndPop howns
  | reacquire hi => exact h.waitAndPop (h.owns _ (by rw [hi]; exact nofun))
  | spurious hi => exact h.wake hi
  | tryPop hi =>
    obtain ⟨hstart, howns⟩ := h.start hi false
    exact hstart.tryPop howns hi
  | waiAndPop => exact hl.elim
  | woken => exact hl.elim
  | timeout => exact hl.elim

/-- **Exactly once, and in order.** In a run of any number of threads that push and pop, in
which no timed pop is called: the elements removed, with those in the queue behind them,
are the elements pushed, in order; no pop has removed two elements; a `TryPop` returns
false only if there is no element; and no thread sleeps while there is one. -/
theorem exactly_once {ls : List (Label ι α)} (hrun : Run Step init ls s)
    (huntimed : ∀ l ∈ ls, Untimed l) :
    s.removed.map Prod.snd ++ s.queue.items = s.pushed ∧ (s.removed.map Prod.fst).Nodup ∧
      (s.queue.tryPop.1 = none → s.queue.items = []) ∧
      ¬(s.queue.items ≠ [] ∧ ∃ i, s.queue.waiter i = .asleep) := by
  have h : Delivering s :=
    hrun.preserves (fun h hl hstep => hstep.delivering hl h) huntimed delivering_init
  refine ⟨h.order, h.once, fun hfail => ?_, h.notLost⟩
  rw [LockQueue.tryPop] at hfail
  split at hfail
  · assumption
  · exact absurd hfail nofun

/-- Two consumers are woken by one push, a third takes the element, and they sleep again. -/
theorem exactly_once_stolen :
    ∃ s : Clients (Fin 3) ℕ,
      Run Step init [.waitAndPop 0, .waitAndPop 1, .push 7, .tryPop 2, .reacquire 0, .push 8,
        .reacquire 1] s ∧ s.removed = [(2, 7), (1, 8)] ∧ s.queue.waiter 0 = .notified ∧
        s.removed.map Prod.snd ++ s.queue.items = s.pushed := by
  have hrun : ∃ s : Clients (Fin 3) ℕ,
      Run Step init [.waitAndPop 0, .waitAndPop 1, .push 7, .tryPop 2, .reacquire 0, .push 8,
        .reacquire 1] s ∧ s.removed = [(2, 7), (1, 8)] ∧ s.queue.waiter 0 = .notified :=
    ⟨_, .cons (.waitAndPop rfl) (.cons (.waitAndPop rfl) (.cons (.push 7) (.cons (.tryPop rfl)
      (.cons (.reacquire rfl rfl) (.cons (.push 8) (.single (.reacquire rfl rfl))))))), rfl, rfl⟩
  obtain ⟨s, hrun, hremoved, hwaiter⟩ := hrun
  exact ⟨s, hrun, hremoved, hwaiter, (exactly_once hrun (by simp [Untimed])).1⟩

end Clients

end MToolkit

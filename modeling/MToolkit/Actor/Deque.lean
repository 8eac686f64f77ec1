import MToolkit.Library.Handoff
import MToolkit.Library.Lts
import MToolkit.LockContainer.LockList
import Mathlib.Tactic

/-!
# The actor's queue

The class `Deque` (`actor/queue.h`): a `std::deque` with a mutex and a condition variable.
`Pop` is as in `LockList`, but a push, at either end, notifies one thread only, with the
mutex held. The thread notified may find its element gone, taken by a `Pop` that came
later and did not sleep.

With any number of threads, no element is lost or taken twice, every `Pop` takes the front
element, and no element lies there beside a thread that sleeps unless one has been woken and
is about to look (`MToolkit.Deque.Traffic.handoff`).
-/

namespace MToolkit

open Condvar Census

/-- A deque with its waiting threads. -/
abbrev Deque (ι α : Type) := LockList ι α

namespace Deque

variable {ι α : Type} [DecidableEq ι]

/-- `Deque::PushBack`, which wakes a sleeper if there is one. -/
def PushBack (d : Deque ι α) (value : α) (d' : Deque ι α) : Prop :=
  d'.items = d.items ++ [value] ∧ NotifyOne .asleep .notified d.waiter d'.waiter

/-- `Deque::PushFront`, which wakes a sleeper if there is one. -/
def PushFront (d : Deque ι α) (value : α) (d' : Deque ι α) : Prop :=
  d'.items = value :: d.items ∧ NotifyOne .asleep .notified d.waiter d'.waiter

theorem pushBack_wake {d : Deque ι α} {i : ι} (hi : d.waiter i = .asleep) (value : α) :
    d.PushBack value ⟨d.items ++ [value], Function.update d.waiter i .notified⟩ :=
  ⟨rfl, .wake i hi⟩

theorem pushBack_none {d : Deque ι α} (hnone : ∀ i, d.waiter i ≠ .asleep) (value : α) :
    d.PushBack value ⟨d.items ++ [value], d.waiter⟩ :=
  ⟨rfl, .none hnone⟩

theorem pushFront_wake {d : Deque ι α} {i : ι} (hi : d.waiter i = .asleep) (value : α) :
    d.PushFront value ⟨value :: d.items, Function.update d.waiter i .notified⟩ :=
  ⟨rfl, .wake i hi⟩

/-- A critical section of thread `i` in `Deque::Pop`: with the element it returns, or in a
wait. -/
def pop (d : Deque ι α) (i : ι) : Option α × Deque ι α := d.waitPopFront i

theorem pop_fst (d : Deque ι α) (i : ι) : (d.pop i).1 = d.items.head? :=
  LockList.waitPopFront_fst d i

theorem pop_items (d : Deque ι α) (i : ι) : (d.pop i).2.items = d.items.tail :=
  LockList.waitPopFront_items d i

/-- What is popped was in front. -/
theorem pop_append (d : Deque ι α) (i : ι) :
    (d.pop i).1.toList ++ (d.pop i).2.items = d.items := by
  rw [pop_fst, pop_items]
  cases d.items <;> rfl

/-- `Deque::Size`. -/
def size (d : Deque ι α) : ℕ := d.items.length

/-- A sleeper wakes up without having been notified. -/
def wake (d : Deque ι α) (i : ι) : Deque ι α :=
  { d with waiter := Function.update d.waiter i .notified }

/-! ### No element is forgotten -/

variable [Fintype ι] {d d' : Deque ι α} {i : ι}

/-- **While somebody sleeps, each element has a thread that has been woken.** -/
def Attended (d : Deque ι α) : Prop :=
  Covered .asleep .notified d.items.length 0 d.waiter

omit [DecidableEq ι] in
theorem attended_init : Attended (LockList.init : Deque ι α) := covered_zero

omit [DecidableEq ι] in
theorem Attended.notified (h : Attended d) (hne : d.items ≠ [])
    (hasleep : ∃ i, d.waiter i = .asleep) : ∃ i, d.waiter i = .notified :=
  (h.coming (List.length_pos_iff.mpr hne) hasleep).resolve_left (Nat.lt_irrefl 0)

/-- A push of either kind. -/
theorem Attended.push (h : Attended d) (hlen : d'.items.length = d.items.length + 1)
    (hone : NotifyOne .asleep .notified d.waiter d'.waiter) : Attended d' := by
  rw [Attended, hlen]
  exact (Covered.push h).notifyOne hone (by decide)

theorem Attended.pushBack (h : Attended d) {value : α} (hpush : d.PushBack value d') :
    Attended d' :=
  h.push (by rw [hpush.1, List.length_append, List.length_singleton]) hpush.2

theorem Attended.pushFront (h : Attended d) {value : α} (hpush : d.PushFront value d') :
    Attended d' :=
  h.push (by rw [hpush.1, List.length_cons]) hpush.2

/-- A thread that was woken for nothing sleeps again, and whoever takes an element was owed
at most one. -/
theorem Attended.pop (h : Attended d) (i : ι) : Attended (d.pop i).2 := by
  rw [Deque.pop]
  rcases hitems : d.items with _ | ⟨value, items⟩
  · rw [LockList.waitPopFront_of_nil hitems, Attended, hitems]
    exact covered_zero
  · rw [LockList.waitPopFront_of_cons hitems]
    refine Covered.update h nofun ?_
    have hle : woken .notified (d.waiter i) ≤ 1 := woken_le_one
    change items.length + _ ≤ _
    rw [hitems, List.length_cons]
    omega

theorem Attended.wake (h : Attended d) (hi : d.waiter i = .asleep) : Attended (d.wake i) := by
  refine Covered.update h nofun ?_
  rw [hi]
  exact Nat.add_le_add_left (Nat.zero_le _) _

/-! ### Any number of threads -/

/-- A deque with what has passed through it. -/
structure Traffic (ι α : Type) where
  deque : Deque ι α
  /-- What has been pushed, at either end. -/
  pushed : List α
  /-- What `Pop` has returned. -/
  popped : List α

/-- What a thread does. -/
inductive Label (ι α : Type) where
  | pushBack (value : α) : Label ι α
  | pushFront (value : α) : Label ι α
  /-- Thread `i` calls `Pop`. -/
  | pop (i : ι) : Label ι α
  /-- Thread `i`, notified, takes the mutex again. -/
  | reacquire (i : ι) : Label ι α
  /-- Thread `i` wakes up without having been notified. -/
  | spurious (i : ι) : Label ι α

namespace Traffic

/-- A deque that nobody has used. -/
def init : Traffic ι α where
  deque := .init
  pushed := []
  popped := []

/-- A critical section of thread `i` in `Pop`. -/
def pop (s : Traffic ι α) (i : ι) : Traffic ι α :=
  { s with deque := (s.deque.pop i).2, popped := s.popped ++ (s.deque.pop i).1.toList }

/-- The steps of the threads, in any interleaving of their critical sections. -/
inductive Step : Traffic ι α → Label ι α → Traffic ι α → Prop
  | pushBack {s : Traffic ι α} {value : α} {deque : Deque ι α} : s.deque.PushBack value deque →
      Step s (.pushBack value) { s with deque := deque, pushed := s.pushed ++ [value] }
  | pushFront {s : Traffic ι α} {value : α} {deque : Deque ι α} : s.deque.PushFront value deque →
      Step s (.pushFront value) { s with deque := deque, pushed := s.pushed ++ [value] }
  | pop {s : Traffic ι α} {i : ι} : s.deque.waiter i = .running → Step s (.pop i) (s.pop i)
  | reacquire {s : Traffic ι α} {i : ι} : s.deque.waiter i = .notified →
      Step s (.reacquire i) (s.pop i)
  | spurious {s : Traffic ι α} {i : ι} : s.deque.waiter i = .asleep →
      Step s (.spurious i) { s with deque := s.deque.wake i }

variable {s s' : Traffic ι α}

/-- **The deque keeps its elements.** -/
structure Kept (s : Traffic ι α) : Prop where
  conserved : (s.pushed : Multiset α) = s.popped + s.deque.items
  attended : s.deque.Attended

omit [DecidableEq ι] in
theorem kept_init : Kept (init : Traffic ι α) := ⟨rfl, attended_init⟩

theorem Kept.pop (h : Kept s) (i : ι) : Kept (s.pop i) := by
  refine ⟨?_, h.attended.pop i⟩
  calc (s.pushed : Multiset α)
      = s.popped + ((s.deque.pop i).1.toList ++ (s.deque.pop i).2.items : List α) := by
        rw [h.conserved, pop_append]
    _ = (s.popped ++ (s.deque.pop i).1.toList : List α) + (s.deque.pop i).2.items := by
        rw [Multiset.coe_add, Multiset.coe_add, List.append_assoc]

/-- **Every step** keeps the elements. -/
theorem Step.kept {l : Label ι α} (hstep : Step s l s') (h : Kept s) : Kept s' := by
  cases hstep with
  | @pushBack value deque hpush =>
    refine ⟨?_, h.attended.pushBack hpush⟩
    change ((s.pushed ++ [value] : List α) : Multiset α) = s.popped + deque.items
    rw [hpush.1, coe_snoc, coe_snoc, h.conserved, Multiset.add_cons]
  | @pushFront value deque hpush =>
    refine ⟨?_, h.attended.pushFront hpush⟩
    change ((s.pushed ++ [value] : List α) : Multiset α) = s.popped + deque.items
    rw [hpush.1, coe_snoc, h.conserved, ← Multiset.cons_coe, Multiset.add_cons]
  | pop => exact h.pop _
  | reacquire => exact h.pop _
  | spurious hi => exact ⟨h.conserved, h.attended.wake hi⟩

/-- **The deque is a queue**: what has been pushed has been popped or is in the deque, in the order
in which it was pushed. -/
def InOrder (s : Traffic ι α) : Prop := s.pushed = s.popped ++ s.deque.items

omit [Fintype ι] in
theorem InOrder.pop (h : InOrder s) (i : ι) : InOrder (s.pop i) := by
  rw [InOrder, Traffic.pop, List.append_assoc, pop_append]
  exact h

/-- **The hand-off.** In a run of any number of threads that push at either end and pop: what
has been pushed has been popped or is in the deque, and once only; a `Pop` takes the front
element or, if there is none, waits; and when the deque has an element and a thread sleeps,
some thread has been notified and has still to take the mutex. -/
theorem handoff {ls : List (Label ι α)} (hrun : Lts.Run Step init ls s) :
    (s.pushed : Multiset α) = s.popped + s.deque.items ∧
      (∀ i, (s.pop i).popped = s.popped ++ s.deque.items.head?.toList ∧
        (s.pop i).deque.items = s.deque.items.tail) ∧
      ¬(s.deque.items ≠ [] ∧ (∃ i, s.deque.waiter i = .asleep) ∧
        ∀ i, s.deque.waiter i ≠ .notified) := by
  have h : Kept s := hrun.invariant (fun h hstep => hstep.kept h) kept_init
  refine ⟨h.conserved, fun i => ?_, ?_⟩
  · exact ⟨by rw [Traffic.pop, pop_fst], s.deque.pop_items i⟩
  · rintro ⟨hne, hasleep, hnone⟩
    obtain ⟨i, hi⟩ := h.attended.notified hne hasleep
    exact hnone i hi

/-- Two threads sleep, an element pushed at the back wakes one of them, and one pushed at the
front, meant for the other, goes to a third. -/
theorem handoff_stolen :
    ∃ s : Traffic (Fin 3) ℕ,
      Lts.Run Step init [.pop 0, .pop 1, .pushBack 7, .pushFront 8, .pop 2] s ∧
        s.popped = [8] ∧ s.deque.items = [7] ∧ s.deque.waiter 0 = .notified ∧
        (s.pushed : Multiset ℕ) = s.popped + s.deque.items := by
  have hrun : ∃ s : Traffic (Fin 3) ℕ,
      Lts.Run Step init [.pop 0, .pop 1, .pushBack 7, .pushFront 8, .pop 2] s ∧
        s.popped = [8] ∧ s.deque.items = [7] ∧ s.deque.waiter 0 = .notified :=
    ⟨_, .cons (.pop rfl) (.cons (.pop rfl) (.cons (.pushBack (pushBack_wake (i := 0) rfl 7))
      (.cons (.pushFront (pushFront_wake (i := 1) rfl 8)) (.single (.pop rfl))))), rfl, rfl, rfl⟩
  obtain ⟨s, hrun, hpopped, hitems, hwaiter⟩ := hrun
  exact ⟨s, hrun, hpopped, hitems, hwaiter, (handoff hrun).1⟩

end Traffic

end Deque

end MToolkit

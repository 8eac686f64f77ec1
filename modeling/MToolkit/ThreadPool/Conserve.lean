import MToolkit.Library.Handoff
import MToolkit.ThreadPool.Barrier

/-!
# The pool conserves its work

`Commit` queues its task with the mutex held and notifies one worker when it has released
it. By then the task may be gone, taken by a worker that never slept, or nobody may be
asleep to be notified. As long as `Release` is not called, nothing is lost by this
(`MToolkit.ThreadPool.work_conserving`):

* every task is queued, held by one worker or finished, and in one of these places only;
* the queue holds what has been committed last, in the order of the commits, and is taken
  from at the front;
* no task lies in the queue beside a sleeping worker unless a notification is under way.
-/

namespace MToolkit

open Condvar Census Lts

/-- A worker holds a task once or not at all. -/
theorem Worker.count_holds (w : Worker) (t : TaskId) :
    w.holds.count t = if t ∈ w.holds then 1 else 0 := by
  refine Multiset.count_eq_of_nodup ?_
  cases w with
  | taken => exact Multiset.nodup_singleton _
  | running => exact Multiset.nodup_singleton _
  | _ => exact Multiset.nodup_zero

namespace ThreadPool

variable {ι : Type} [Fintype ι] {s s' : ThreadPool ι}

/-- How many places a task is in: the queue, the hands of workers, the finished tasks. -/
def places (s : ThreadPool ι) (t : TaskId) : ℕ :=
  s.tasks.count t + Fintype.card {i // t ∈ (s.worker i).holds} + s.finished.count t

/-- The queue holds what was committed last, in the order of the commits: what has left it
came before what is still there. -/
def InCommitOrder (s : ThreadPool ι) : Prop :=
  ∃ k ≤ s.committed, s.tasks = List.range' k (s.committed - k)

omit [Fintype ι] in
theorem InCommitOrder.push (h : InCommitOrder s) : InCommitOrder s.push := by
  obtain ⟨k, hk, hrange⟩ := h
  refine ⟨k, hk.trans (Nat.le_succ _), ?_⟩
  rw [ThreadPool.push, hrange, Nat.succ_sub hk, Nat.succ_eq_add_one, List.range'_1_concat,
    Nat.add_sub_cancel' hk]

omit [Fintype ι] in
/-- The front of the queue leaves it. -/
theorem InCommitOrder.tail (h : InCommitOrder s) {task : TaskId} {tasks : List TaskId}
    (hcons : s.tasks = task :: tasks) (hcommitted : s'.committed = s.committed)
    (htasks : s'.tasks = tasks) : InCommitOrder s' := by
  obtain ⟨k, hk, hrange⟩ := h
  rw [hcons] at hrange
  obtain ⟨n, hn⟩ : ∃ n, s.committed - k = n + 1 := by
    refine Nat.exists_eq_succ_of_ne_zero fun hzero => ?_
    rw [hzero] at hrange
    exact absurd hrange (List.cons_ne_nil _ _)
  rw [hn, List.range'_succ] at hrange
  refine ⟨k + 1, by omega, ?_⟩
  rw [htasks, hcommitted, show s.committed - (k + 1) = n by omega]
  exact (List.cons.inj hrange).2

/-- **A task committed is in one place**, and any other in none. -/
theorem Accounted.places_eq (h : Accounted s) (t : TaskId) :
    s.places t = if t < s.committed then 1 else 0 := by
  have hheld : (census Worker.holds s.worker).count t =
      Fintype.card {i // t ∈ (s.worker i).holds} := by
    rw [count_census, ← census_ite fun w : Worker => t ∈ w.holds]
    simp only [Worker.count_holds]
  have hcount := congrArg (Multiset.count t) h.tasks
  rw [Multiset.count_add, Multiset.count_add, hheld, Multiset.coe_count, Multiset.coe_count,
    Multiset.count_eq_of_nodup (Multiset.nodup_range _)] at hcount
  rw [places, hcount]
  simp only [Multiset.mem_range]

/-- **An open pool at work.** -/
structure Conserving (s : ThreadPool ι) : Prop where
  /-- The pool is open. -/
  isOpen : s.isClose = false
  unreleased : s.releasing = .outside
  /-- A worker waits only for want of tasks. -/
  idle : ∀ i, s.worker i = .blocking → s.tasks = []
  /-- While somebody sleeps, notifications are on their way for all tasks queued. -/
  covered : Covered .asleep .notified s.tasks.length s.notifying s.worker
  order : s.InCommitOrder

theorem conserving_init : Conserving (init : ThreadPool ι) where
  isOpen := rfl
  unreleased := rfl
  idle := fun _ => nofun
  covered := covered_zero
  order := ⟨0, le_rfl, rfl⟩

variable [DecidableEq ι]

/-- **Worker `i` moves**, and leaves the queue alone. -/
theorem Conserving.move (h : Conserving s) {i : ι} {w : Worker} {finished : List TaskId}
    {freeSize : ℤ} (hidle : w = .blocking ∨ w = .asleep → s.tasks = [])
    (hwoken : woken .notified (s.worker i) ≤ woken .notified w) :
    Conserving { s.move i w with freeSize := freeSize, finished := finished } where
  isOpen := h.isOpen
  unreleased := h.unreleased
  idle := by
    intro j hj
    by_cases hji : j = i
    · subst hji
      exact hidle (.inl (by simpa using hj))
    · exact h.idle j (by simpa [hji] using hj)
  covered := by
    refine h.covered.update (fun hw => ?_) (Nat.add_le_add_left hwoken _)
    exact List.length_eq_zero_iff.mpr (hidle (.inr hw))
  order := h.order

theorem Conserving.enter (h : Conserving s) (hfree : s.Unlocked) (i : ι) :
    Conserving (s.enter i) := by
  rcases htasks : s.tasks with _ | ⟨task, tasks⟩
  · -- A worker that was notified for nothing goes back to sleep, and is owed nothing.
    rw [enter_of_nil h.isOpen htasks]
    refine ⟨h.isOpen, h.unreleased, fun _ _ => htasks, ?_, h.order⟩
    rw [move_tasks, htasks]
    exact covered_zero
  · rw [enter_of_cons h.isOpen htasks]
    refine ⟨h.isOpen, h.unreleased, fun j hj => ?_, ?_, ?_⟩
    · by_cases hji : j = i
      · subst hji
        simp at hj
      · exact absurd (by simpa [hji] using hj) (hfree j)
    · refine h.covered.update nofun ?_
      change tasks.length + _ ≤ _
      rw [htasks, List.length_cons]
      have hle : woken .notified (s.worker i) ≤ 1 := woken_le_one
      omega
    · exact h.order.tail htasks rfl rfl

omit [DecidableEq ι] in
theorem Conserving.push (h : Conserving s) (hfree : s.Unlocked) : Conserving s.push where
  isOpen := h.isOpen
  unreleased := h.unreleased
  idle := fun i hi => absurd hi (hfree i)
  covered := by
    rw [ThreadPool.push, List.length_append]
    exact h.covered.push
  order := h.order.push

/-- **Every step but the one that closes it** keeps an open pool at work. -/
theorem Step.conserving {l : Label ι} (hstep : Step s l s') (hl : l ≠ .close)
    (h : Conserving s) : Conserving s' := by
  cases hstep with
  | push hfree => exact h.push hfree
  | notifyOne hpos hone =>
    have hsending : s.notifying = s.notifying - 1 + 1 := by omega
    refine ⟨h.isOpen, h.unreleased, fun i hi => ?_, ?_, h.order⟩
    · cases hone with
      | wake j hj =>
        by_cases hij : i = j
        · subst hij
          simp at hi
        · exact h.idle i (by simpa [hij] using hi)
      | none => exact h.idle i hi
    · have hcovered := h.covered
      rw [hsending] at hcovered
      exact hcovered.notifyOne hone (by decide)
  | enter _ hfree => exact h.enter hfree _
  | @sleep i hi => exact h.move (fun _ => h.idle i hi) (by rw [hi]; exact le_rfl)
  | @spurious i hi => exact h.move (by simp) (by rw [hi]; exact Nat.zero_le _)
  | decrement hi => exact h.move (by simp) (by rw [hi]; exact le_rfl)
  | finish hi => exact h.move (by simp) (by rw [hi]; exact le_rfl)
  | increment hi => exact h.move (by simp) (by rw [hi]; exact le_rfl)
  | wait => exact ⟨h.isOpen, h.unreleased, h.idle, h.covered, h.order⟩
  | readEmpty => exact ⟨h.isOpen, h.unreleased, h.idle, h.covered, h.order⟩
  | readFreeSize => exact ⟨h.isOpen, h.unreleased, h.idle, h.covered, h.order⟩
  | close => exact absurd rfl hl
  | notifyAll hrel =>
    rw [h.unreleased] at hrel
    exact absurd hrel nofun

/-- **The pool conserves its work.** In a run of any number of workers and of threads that
commit tasks, in which `Release` is not called: every task committed is queued, held by one
worker or finished, and in one of these places only; the queue holds the tasks committed
last, in order, and the task a worker takes is the one at its front; and when a task is
queued while a worker sleeps, a `Commit` has still to notify or a worker has been notified
and has still to take the mutex. -/
theorem work_conserving {ls : List (Label ι)} (hrun : Run Step init ls s)
    (hopen : ∀ l ∈ ls, l ≠ .close) :
    (∀ t, s.places t = if t < s.committed then 1 else 0) ∧
      (s.InCommitOrder ∧ ∀ i t s', Step s (.enter i) s' → s'.worker i = .taken t →
        s.tasks = t :: s'.tasks) ∧
      (s.tasks ≠ [] → (∃ i, s.worker i = .asleep) →
        0 < s.notifying ∨ ∃ i, s.worker i = .notified) := by
  have h : Conserving s :=
    hrun.preserves (fun h hl hstep => hstep.conserving hl h) hopen conserving_init
  refine ⟨(Reachable.accounted ⟨ls, hrun⟩).places_eq, ⟨h.order, ?_⟩, ?_⟩
  · intro i t s' hstep htaken
    cases hstep with
    | enter _ hfree =>
      rcases htasks : s.tasks with _ | ⟨task, tasks⟩
      · rw [enter_of_nil h.isOpen htasks] at htaken
        simp at htaken
      · rw [enter_of_cons h.isOpen htasks] at htaken ⊢
        obtain rfl : task = t := by simpa using htaken
        rfl
  · intro hne hasleep
    exact h.covered.coming (List.length_pos_iff.mpr hne) hasleep

/-- Two workers, of which the first sleeps and the second takes the only task before anybody
is notified of it: the first is then woken for nothing, and no task is left behind. -/
theorem work_conserving_stolen :
    ∃ s : ThreadPool (Fin 2),
      Run Step init [.enter 0, .sleep 0, .push, .enter 1, .notifyOne, .push] s ∧
        s.worker 0 = .notified ∧ s.worker 1 = .taken 0 ∧ s.tasks = [1] ∧ s.notifying = 1 ∧
        (∀ t, s.places t = if t < s.committed then 1 else 0) ∧ s.InCommitOrder := by
  have hrun : ∃ s : ThreadPool (Fin 2),
      Run Step init [.enter 0, .sleep 0, .push, .enter 1, .notifyOne, .push] s ∧
        s.worker 0 = .notified ∧ s.worker 1 = .taken 0 ∧ s.tasks = [1] ∧ s.notifying = 1 :=
    ⟨_, .cons (.enter (.inl rfl) fun _ => nofun) (.cons (.sleep rfl)
      (.cons (.push (by decide)) (.cons (.enter (.inl rfl) (by decide))
        (.cons (.notifyOne Nat.one_pos (.wake 0 rfl)) (.single (.push (by decide))))))),
      rfl, rfl, rfl, rfl⟩
  obtain ⟨s, hrun, h0, h1, htasks, hsending⟩ := hrun
  obtain ⟨hplaces, ⟨horder, -⟩, -⟩ := work_conserving hrun (by simp)
  exact ⟨s, hrun, h0, h1, htasks, hsending, hplaces, horder⟩

end ThreadPool

end MToolkit

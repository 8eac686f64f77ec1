import MToolkit.ThreadPool.Pool
import Mathlib.Tactic

/-!
# `Wait` as a barrier

`IsComplete` infers that everything is done from two quantities, the queue, found empty,
and the counter of free workers, found full. A worker is counted as free until its
`--_freeSize`, but it takes its task from the queue before that. In between, its task is
in neither place, and `Wait` returns although the task has not even begun.

That is the only way: the tasks are accounted for in every state
(`MToolkit.ThreadPool.Accounted`), and so those `Wait` has to wait for are all done when it
returns exactly if no worker is caught in that gap with one of them
(`MToolkit.ThreadPool.wait_barrier_iff`).
-/

namespace MToolkit

open Condvar Census Lts

/-- The task a worker has taken and not yet run to its end. -/
@[simp] def Worker.holds : Worker → Multiset TaskId
  | .taken task => {task}
  | .running task => {task}
  | _ => 0

/-- Whether the worker is missing from `_freeSize`. -/
@[simp] def Worker.busy : Worker → ℕ
  | .running _ => 1
  | .ran => 1
  | _ => 0

/-- A worker that counts as free holds a task only in the gap before its
`--_freeSize`. -/
theorem Worker.mem_holds {w : Worker} {t : TaskId} (h : w.busy = 0) :
    t ∈ w.holds ↔ w = .taken t := by
  cases w with
  | taken task => simp [eq_comm]
  | running task => simp at h
  | _ => simp

namespace ThreadPool

variable {ι : Type} [Fintype ι] [DecidableEq ι] {s s' : ThreadPool ι}

/-- **The tasks and the workers are accounted for.** -/
structure Accounted (s : ThreadPool ι) : Prop where
  /-- Every task committed is queued, held by a worker or finished, and once only. -/
  tasks : (s.tasks : Multiset TaskId) + census Worker.holds s.worker + s.finished =
    Multiset.range s.committed
  /-- Every worker is free or busy. -/
  free : s.freeSize + census Worker.busy s.worker = Fintype.card ι
  /-- A `Wait` waits for tasks that have been committed. -/
  early : ∀ k, s.waiting = .testing k ∨ s.waiting = .sawEmpty k → k ≤ s.committed
  /-- Once a `Wait` has found the queue empty, what is queued came later. -/
  seen : ∀ k, s.waiting = .sawEmpty k → ∀ t ∈ s.tasks, k ≤ t

omit [DecidableEq ι] in
theorem accounted_init : Accounted (init : ThreadPool ι) := by
  refine ⟨?_, ?_, by simp [init], by simp [init]⟩
  · have hnone : census Worker.holds (init : ThreadPool ι).worker = 0 :=
      census_eq_zero _ fun _ => rfl
    rw [hnone]
    rfl
  · have hnone : census Worker.busy (init : ThreadPool ι).worker = 0 :=
      census_eq_zero _ fun _ => rfl
    rw [hnone]
    simp [init]

/-- **Worker `i` moves**, and the queue, the counter and the finished tasks follow it. -/
theorem Accounted.move (h : Accounted s) {i : ι} {w : Worker} (tasks finished : List TaskId)
    (freeSize : ℤ)
    (htasks : (tasks : Multiset TaskId) + w.holds + finished =
      s.tasks + (s.worker i).holds + s.finished)
    (hfree : freeSize + w.busy = s.freeSize + (s.worker i).busy) (hsub : tasks ⊆ s.tasks) :
    Accounted { s.move i w with tasks := tasks, freeSize := freeSize, finished := finished } := by
  have hholds := census_update Worker.holds s.worker i w
  have hbusy := census_update Worker.busy s.worker i w
  refine ⟨add_right_cancel (b := (s.worker i).holds) ?_, ?_, h.early,
    fun k hk t ht => h.seen k hk t (hsub ht)⟩
  · calc (tasks : Multiset TaskId) + census Worker.holds (Function.update s.worker i w) + finished +
          (s.worker i).holds
        = tasks + (census Worker.holds (Function.update s.worker i w) + (s.worker i).holds) +
          finished := by abel
      _ = tasks + w.holds + finished + census Worker.holds s.worker := by rw [hholds]; abel
      _ = s.tasks + census Worker.holds s.worker + s.finished + (s.worker i).holds := by
          rw [htasks]; abel
      _ = Multiset.range s.committed + (s.worker i).holds := by rw [h.tasks]
  · have hcard := h.free
    simp only [ThreadPool.move]
    omega

/-- A worker that goes on without touching tasks or counter. -/
theorem Accounted.go (h : Accounted s) {i : ι} {w : Worker} (hholds : w.holds = (s.worker i).holds)
    (hbusy : w.busy = (s.worker i).busy) : Accounted (s.move i w) :=
  h.move s.tasks s.finished s.freeSize (by rw [hholds]) (by rw [hbusy]) (List.Subset.refl _)

omit [DecidableEq ι] in
/-- Notified workers hold what they held asleep: nothing. -/
theorem Accounted.notify (h : Accounted s) {worker : ι → Worker}
    (hholds : ∀ i, (worker i).holds = (s.worker i).holds)
    (hbusy : ∀ i, (worker i).busy = (s.worker i).busy) {notifying : ℕ} {releasing : Releasing} :
    Accounted { s with worker := worker, notifying := notifying, releasing := releasing } :=
  ⟨by simpa only [census_congr hholds] using h.tasks,
    by simpa only [census_congr hbusy] using h.free,
    h.early, h.seen⟩

theorem Accounted.enter (h : Accounted s) {i : ι}
    (hi : (s.worker i).holds = 0 ∧ (s.worker i).busy = 0) :
    Accounted (s.enter i) := by
  rw [ThreadPool.enter]
  split
  · exact h.go (by rw [hi.1]; split <;> rfl) (by rw [hi.2]; split <;> rfl)
  · next task tasks htasks =>
    split_ifs
    · exact h.go hi.1.symm hi.2.symm
    · refine h.move tasks s.finished s.freeSize ?_ (by rw [hi.2]; rfl)
        (htasks ▸ List.subset_cons_self task tasks)
      rw [htasks, hi.1, ← Multiset.cons_coe, ← Multiset.singleton_add, Worker.holds]
      abel

/-- **Every step keeps tasks and workers accounted for.** -/
theorem Step.accounted {l : Label ι} (hstep : Step s l s') (h : Accounted s) : Accounted s' := by
  have hholds : Worker.holds .notified = Worker.holds .asleep := rfl
  have hbusy : Worker.busy .notified = Worker.busy .asleep := rfl
  cases hstep with
  | push =>
    refine ⟨?_, h.free, fun k hk => (h.early k hk).trans (Nat.le_succ _), fun k hk t ht => ?_⟩
    -- the new task is in the list, and everything else where it was
    · simp only [ThreadPool.push, ← Multiset.coe_add, Multiset.coe_singleton, Multiset.range_succ,
        ← h.tasks,
        ← Multiset.singleton_add]
      abel
    · rcases List.mem_append.mp ht with ht | ht
      · exact h.seen k hk t ht
      · rw [List.mem_singleton.mp ht]
        exact h.early k (.inr hk)
  | notifyOne _ hone => exact h.notify (hone.map_eq hholds) (hone.map_eq hbusy)
  | enter hi => exact h.enter (by rcases hi with hi | hi <;> rw [hi] <;> exact ⟨rfl, rfl⟩)
  | sleep hi => exact h.go (by rw [hi]; rfl) (by rw [hi]; rfl)
  | spurious hi => exact h.go (by rw [hi]; rfl) (by rw [hi]; rfl)
  | decrement hi =>
    exact h.move s.tasks s.finished (s.freeSize - 1) (by rw [hi]; rfl)
      (by rw [hi]; simp [Worker.busy]) (List.Subset.refl _)
  | @finish i task hi =>
    refine h.move s.tasks (s.finished ++ [task]) s.freeSize ?_ (by rw [hi]; rfl)
      (List.Subset.refl _)
    rw [hi, ← Multiset.coe_add, Multiset.coe_singleton]
    simp only [Worker.holds]
    abel
  | increment hi =>
    exact h.move s.tasks s.finished (s.freeSize + 1) (by rw [hi]; rfl)
      (by rw [hi]; simp [Worker.busy]) (List.Subset.refl _)
  | wait =>
    refine ⟨h.tasks, h.free, fun k hk => ?_, fun k hk => by simp at hk⟩
    simp only [Waiting.testing.injEq, reduceCtorEq, or_false] at hk
    exact hk.ge
  | @readEmpty k hk =>
    refine ⟨h.tasks, h.free, fun k' hk' => ?_, fun k' hk' t ht => ?_⟩
    -- the caller that goes on has the number of tasks it started with
    · obtain rfl : k = k' := by
        by_cases hnil : s.tasks.isEmpty <;> simpa [ThreadPool.readEmpty, hnil] using hk'
      exact h.early k (.inl hk)
    -- it goes on only if there was no task
    · by_cases hnil : s.tasks.isEmpty
      · simp [ThreadPool.readEmpty, List.isEmpty_iff.mp hnil] at ht
      · simp [ThreadPool.readEmpty, hnil] at hk'
  | @readFreeSize k hk =>
    refine ⟨h.tasks, h.free, fun k' hk' => ?_, fun k' hk' => ?_⟩
    · obtain rfl : k = k' := by
        by_cases hfree : s.freeSize = Fintype.card ι
        · simp [ThreadPool.readFreeSize, hfree] at hk'
        · simpa [ThreadPool.readFreeSize, hfree] using hk'
      exact h.early k (.inr hk)
    · by_cases hfree : s.freeSize = Fintype.card ι <;> simp [ThreadPool.readFreeSize, hfree] at hk'
  | close => exact ⟨h.tasks, h.free, h.early, h.seen⟩
  | notifyAll =>
    exact h.notify (notifyAll_map_eq hholds) (notifyAll_map_eq hbusy)

theorem Reachable.accounted (hs : s.Reachable) : Accounted s := by
  obtain ⟨ls, hrun⟩ := hs
  exact hrun.invariant (fun h hstep => hstep.accounted h) accounted_init

/-! ### The barrier -/

omit [DecidableEq ι] in
/-- **When every worker counts as free**, what is not queued is finished or in the gap. -/
theorem Accounted.finished_iff (h : Accounted s) (hfree : s.freeSize = Fintype.card ι) {t : TaskId}
    (ht : t < s.committed) (hqueued : t ∉ s.tasks) :
    t ∈ s.finished ↔ ∀ i, s.worker i ≠ .taken t := by
  have hbusy : ∀ i, (s.worker i).busy = 0 := by
    have hcard := h.free
    exact census_eq_zero_iff.mp (by omega)
  have hheld : t ∈ census Worker.holds s.worker ↔ ∃ i, s.worker i = .taken t := by
    rw [mem_census]
    exact exists_congr fun i => Worker.mem_holds (hbusy i)
  have hnodup : ((s.tasks : Multiset TaskId) + census Worker.holds s.worker + s.finished).Nodup :=
    h.tasks ▸ Multiset.nodup_range _
  constructor
  · intro hfin i hi
    exact Multiset.disjoint_left.mp (Multiset.nodup_add.mp hnodup).2.2
      (Multiset.mem_add.mpr (.inr (hheld.mpr ⟨i, hi⟩))) hfin
  · intro hgap
    have hmem : t ∈ (s.tasks : Multiset TaskId) + census Worker.holds s.worker + s.finished :=
      h.tasks ▸ Multiset.mem_range.mpr ht
    simp only [Multiset.mem_add, Multiset.mem_coe, hqueued, false_or, hheld] at hmem
    exact hmem.resolve_left fun ⟨i, hi⟩ => hgap i hi

/-- **When `Wait` is a barrier.** In every state the threads can reach, when the read of
`_freeSize` makes `IsComplete` true for a `Wait` that was called with `k` tasks committed,
these tasks have all finished exactly if no worker has taken one of them and not yet done
its `--_freeSize`. -/
theorem wait_barrier_iff (hs : s.Reachable) (hstep : Step s .readFreeSize s') {k : ℕ}
    (hret : s'.waiting = .returned k) :
    (∀ t < k, t ∈ s'.finished) ↔ ∀ i t, s.worker i = .taken t → k ≤ t := by
  have h := hs.accounted
  cases hstep with
  | @readFreeSize k' hk' =>
    obtain ⟨hfree, rfl⟩ : s.freeSize = Fintype.card ι ∧ k' = k := by
      by_cases hfree : s.freeSize = Fintype.card ι
      · exact ⟨hfree, by simpa [readFreeSize, hfree] using hret⟩
      · simp [readFreeSize, hfree] at hret
    have hfin : ∀ t < k', t ∈ s.finished ↔ ∀ i, s.worker i ≠ .taken t := fun t ht =>
      h.finished_iff hfree (ht.trans_le (h.early k' (.inr hk')))
        fun hc => absurd (h.seen k' hk' t hc) (not_le.mpr ht)
    constructor
    · intro hall i t hi
      by_contra hlt
      exact (hfin t (not_le.mp hlt)).mp (hall t (not_le.mp hlt)) i hi
    · intro hgap t ht
      exact (hfin t ht).mpr fun i hi => absurd (hgap i t hi) (not_le.mpr ht)

/-- One worker, one task, and a `Wait` called when the task is done. -/
theorem wait_barrier_iff_done :
    ∃ s s' : ThreadPool (Fin 1),
      Run Step init [.push, .enter 0, .decrement 0, .finish 0, .increment 0, .wait, .readEmpty] s ∧
        Step s .readFreeSize s' ∧ s'.waiting = .returned 1 ∧
        ((∀ t < 1, t ∈ s'.finished) ↔ ∀ i t, s.worker i = .taken t → 1 ≤ t) := by
  have hrun : ∃ s : ThreadPool (Fin 1),
      Run Step init [.push, .enter 0, .decrement 0, .finish 0, .increment 0, .wait, .readEmpty] s ∧
        s.waiting = .sawEmpty 1 ∧ s.freeSize = 1 :=
    ⟨_, .cons (.push fun _ => nofun) (.cons (.enter (.inl rfl) fun _ => nofun)
      (.cons (.decrement rfl) (.cons (.finish rfl) (.cons (.increment rfl) (.cons .wait
        (.single (.readEmpty rfl))))))), rfl, rfl⟩
  obtain ⟨s, hrun, hw, hf⟩ := hrun
  have hret : (s.readFreeSize 1).waiting = .returned 1 := by simp [readFreeSize, hf]
  exact ⟨s, _, hrun, .readFreeSize hw, hret, wait_barrier_iff ⟨_, hrun⟩ (.readFreeSize hw) hret⟩

/-- **A `Wait` that does not wait**: the only worker has taken the only task and not yet
counted itself out when `IsComplete` looks. -/
theorem wait_returns_early :
    ∃ s s' : ThreadPool (Fin 1), Run Step init [.push, .wait, .enter 0, .readEmpty] s ∧
      Step s .readFreeSize s' ∧ s'.waiting = .returned 1 ∧ s.worker 0 = .taken 0 ∧
      ¬∀ t < 1, t ∈ s'.finished :=
  ⟨_, _, .cons (.push fun _ => nofun) (.cons .wait (.cons (.enter (.inl rfl) fun _ => nofun)
    (.single (.readEmpty rfl)))), .readFreeSize rfl, rfl, rfl,
    fun h => absurd (h 0 Nat.one_pos) List.not_mem_nil⟩

end ThreadPool

end MToolkit

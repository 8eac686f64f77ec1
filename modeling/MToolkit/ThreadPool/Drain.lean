import MToolkit.ThreadPool.Conserve

/-!
# What a release leaves behind

A worker looks at `_isClose` before it takes a task, so that from the store on nothing leaves the
queue: the tasks that are run are the ones that have been taken by then, the first ones committed,
and all others stay where they are (`MToolkit.ThreadPool.release_drops`). `IsComplete` asks for an
empty queue. A `Wait` that is called in a closed pool thus returns if nothing has been left behind,
and otherwise never (`MToolkit.ThreadPool.wait_returns_iff`).
-/

namespace MToolkit

open Condvar Census Lts

/-- How many steps the worker is away from being free. -/
@[simp] def Worker.remaining : Worker → ℕ
  | .taken _ => 3
  | .running _ => 2
  | .ran => 1
  | _ => 0

namespace ThreadPool

variable {ι : Type} [Fintype ι] [DecidableEq ι] {s s' u : ThreadPool ι} {ls : List (Label ι)}

/-! ### The order of the tasks -/

/-- **Tasks are taken in the order of the commits**, in closed pools too. -/
theorem Step.inCommitOrder {l : Label ι} (hstep : Step s l s') (h : s.InCommitOrder) :
    s'.InCommitOrder := by
  cases hstep with
  | push => exact h.push
  | @enter i =>
    rcases htasks : s.tasks with _ | ⟨task, tasks⟩
    · rw [ThreadPool.enter, htasks]
      exact h
    · by_cases hclose : s.isClose = true
      · rw [enter_of_isClose hclose]
        exact h
      · rw [enter_of_cons (Bool.eq_false_iff.mpr hclose) htasks]
        exact h.tail htasks rfl rfl
  | _ => exact h

theorem Reachable.inCommitOrder (hs : s.Reachable) : s.InCommitOrder := by
  obtain ⟨ls, hrun⟩ := hs
  exact hrun.invariant (fun h hstep => hstep.inCommitOrder h) ⟨0, le_rfl, rfl⟩

/-- **Nothing is taken from a closed pool**: it stays closed, and its queue grows at the end. -/
theorem Step.closed {l : Label ι} (hstep : Step s l s') (hclose : s.isClose = true) :
    s'.isClose = true ∧ s.committed ≤ s'.committed ∧
      s'.tasks = s.tasks ++ List.range' s.committed (s'.committed - s.committed) := by
  have hsame : s.tasks = s.tasks ++ List.range' s.committed (s.committed - s.committed) := by
    rw [Nat.sub_self, List.range'_zero, List.append_nil]
  cases hstep with
  | push =>
    refine ⟨hclose, Nat.le_succ _, ?_⟩
    rw [ThreadPool.push, Nat.add_sub_cancel_left]
    rfl
  | enter =>
    rw [enter_of_isClose hclose]
    exact ⟨hclose, le_rfl, hsame⟩
  | close => exact ⟨rfl, le_rfl, hsame⟩
  | _ => exact ⟨hclose, le_rfl, hsame⟩

theorem run_closed (hrun : Run Step s ls u) (hclose : s.isClose = true) :
    u.isClose = true ∧ s.committed ≤ u.committed ∧
      u.tasks = s.tasks ++ List.range' s.committed (u.committed - s.committed) := by
  induction hrun with
  | nil s => simp [hclose]
  | @cons s m u l ls hstep _ ih =>
    obtain ⟨hm, hle, htasks⟩ := hstep.closed hclose
    obtain ⟨hu, hle', htasks'⟩ := ih hm
    refine ⟨hu, hle.trans hle', ?_⟩
    have hsplit : u.committed - s.committed =
        m.committed - s.committed + (u.committed - m.committed) := by omega
    have hnext : s.committed + (m.committed - s.committed) = m.committed := by omega
    rw [htasks', htasks, hsplit, ← List.range'_append_1, hnext, List.append_assoc]

omit [DecidableEq ι] in
/-- The tasks that are not queued have been started. -/
theorem Accounted.started_iff (h : Accounted s) {k : ℕ}
    (htasks : s.tasks = List.range' k (s.committed - k)) (hk : k ≤ s.committed) (t : TaskId) :
    (t ∈ s.finished ∨ ∃ i, t ∈ (s.worker i).holds) ↔ t < k := by
  have hplaces := h.places_eq t
  have hqueued : t ∈ s.tasks ↔ k ≤ t ∧ t < s.committed := by
    rw [htasks, List.mem_range'_1, Nat.add_sub_cancel' hk]
  have hcount : s.tasks.count t = if k ≤ t ∧ t < s.committed then 1 else 0 := by
    have hnodup : s.tasks.Nodup := htasks ▸ List.nodup_range'
    rw [hnodup.count]
    exact if_congr hqueued rfl rfl
  rw [places, hcount] at hplaces
  rw [← List.count_pos_iff, ← nonempty_subtype, ← Fintype.card_pos_iff]
  by_cases hlt : t < s.committed
  · by_cases hle : k ≤ t
    · -- a queued task is in no other place
      rw [if_pos ⟨hle, hlt⟩, if_pos hlt] at hplaces
      exact iff_of_false (by omega) (not_lt.mpr hle)
    · rw [if_neg fun h => hle h.1, if_pos hlt] at hplaces
      exact iff_of_true (by omega) (not_le.mp hle)
  · rw [if_neg fun h => hlt h.2, if_neg hlt] at hplaces
    exact iff_of_false (by omega) (not_lt.mpr (hk.trans (not_lt.mp hlt)))

/-- **What a release drops.** In every state of a pool that is closed, and in every later one, the
tasks started are the first ones committed before the pool was closed, the same in both states,
each of them is held by one worker or finished, and the others are still queued, in the order of
the commits. -/
theorem release_drops (hs : s.Reachable) (hclose : s.isClose = true) (hrun : Run Step s ls u) :
    (∃ k ≤ s.committed, s.tasks = List.range' k (s.committed - k) ∧
      u.tasks = List.range' k (u.committed - k) ∧
        ∀ t, (t ∈ u.finished ∨ ∃ i, t ∈ (u.worker i).holds) ↔ t < k) ∧
      ∀ t, u.places t = if t < u.committed then 1 else 0 := by
  obtain ⟨ls₀, hrun₀⟩ := hs
  have hu : Accounted u := Reachable.accounted ⟨_, hrun₀.append hrun⟩
  obtain ⟨k, hk, htasks⟩ := Reachable.inCommitOrder ⟨_, hrun₀⟩
  obtain ⟨-, hle, hgrown⟩ := run_closed hrun hclose
  have hrest : u.tasks = List.range' k (u.committed - k) := by
    have hsplit : u.committed - k = s.committed - k + (u.committed - s.committed) := by omega
    have hnext : k + (s.committed - k) = s.committed := by omega
    rw [hgrown, htasks, hsplit, ← List.range'_append_1, hnext]
  exact ⟨⟨k, hk, htasks, hrest, hu.started_iff hrest (hk.trans hle)⟩, hu.places_eq⟩

/-- One worker, which has taken the first of two tasks when the pool is closed, and a third task
that is committed then. -/
theorem release_drops_two :
    ∃ s u : ThreadPool (Fin 1), Run Step init [.push, .push, .enter 0, .close] s ∧
      Run Step s [.push] u ∧ u.tasks = [1, 2] ∧
        (∃ k ≤ s.committed, s.tasks = List.range' k (s.committed - k) ∧
          u.tasks = List.range' k (u.committed - k) ∧
            ∀ t, (t ∈ u.finished ∨ ∃ i, t ∈ (u.worker i).holds) ↔ t < k) ∧
        ∀ t, u.places t = if t < u.committed then 1 else 0 := by
  have hrun : ∃ s u : ThreadPool (Fin 1), Run Step init [.push, .push, .enter 0, .close] s ∧
      Run Step s [.push] u ∧ s.isClose = true ∧ u.tasks = [1, 2] :=
    ⟨_, _, .cons (.push fun _ => nofun) (.cons (.push fun _ => nofun)
      (.cons (.enter (.inl rfl) fun _ => nofun) (.single (.close rfl)))),
      .single (.push (by decide)), rfl, rfl⟩
  obtain ⟨s, u, hrun, hrun', hclose, htasks⟩ := hrun
  exact ⟨s, u, hrun, hrun', htasks, release_drops ⟨_, hrun⟩ hclose hrun'⟩

/-! ### Waiting for a closed pool -/

/-- A `Wait` **that will not return**: the pool is closed, and a task is left in its queue. -/
structure Stranded (s : ThreadPool ι) : Prop where
  closed : s.isClose = true
  tasks_ne_nil : s.tasks ≠ []
  testing : ∃ k, s.waiting = .testing k

theorem Step.stranded {l : Label ι} (hstep : Step s l s') (h : Stranded s) : Stranded s' := by
  obtain ⟨hclose, -, hgrown⟩ := hstep.closed h.closed
  have hne : s'.tasks ≠ [] := by
    rw [hgrown]
    exact List.append_ne_nil_of_left_ne_nil h.tasks_ne_nil _
  refine ⟨hclose, hne, ?_⟩
  obtain ⟨k, hk⟩ := h.testing
  cases hstep with
  | enter =>
    rw [enter_of_isClose h.closed]
    exact ⟨k, hk⟩
  | wait => exact ⟨_, rfl⟩
  | @readEmpty k' hk' =>
    refine ⟨k', ?_⟩
    rw [ThreadPool.readEmpty, if_neg (by simpa using h.tasks_ne_nil)]
  | readFreeSize hk' =>
    rw [hk] at hk'
    cases hk'
  | _ => exact ⟨k, hk⟩

/-- A worker with a task goes on with it. -/
theorem exists_step_of_remaining {i : ι} (hi : 0 < (s.worker i).remaining) :
    ∃ l s', Step s l s' ∧ s'.worker = Function.update s.worker i (s'.worker i) ∧
      (s'.worker i).remaining + 1 = (s.worker i).remaining ∧ s'.tasks = s.tasks ∧
        s'.isClose = s.isClose ∧ s'.waiting = s.waiting := by
  cases hw : s.worker i with
  | taken task =>
    refine ⟨_, _, .decrement hw, ?_, ?_, rfl, rfl, rfl⟩ <;> simp
  | running task =>
    refine ⟨_, _, .finish hw, ?_, ?_, rfl, rfl, rfl⟩ <;> simp
  | ran =>
    refine ⟨_, _, .increment hw, ?_, ?_, rfl, rfl, rfl⟩ <;> simp
  | _ =>
    rw [hw] at hi
    exact absurd hi (Nat.lt_irrefl 0)

/-- **The workers can finish**, by induction on the steps that they are away from being free. -/
theorem exists_run_free {n : ℕ} (hn : census Worker.remaining s.worker = n) :
    ∃ ls u, Run Step s ls u ∧ (∀ i, (u.worker i).remaining = 0) ∧ u.tasks = s.tasks ∧
      u.waiting = s.waiting := by
  induction n using Nat.strong_induction_on generalizing s with
  | _ n ih =>
    by_cases hzero : ∀ i, (s.worker i).remaining = 0
    · exact ⟨[], s, .nil s, hzero, rfl, rfl⟩
    · obtain ⟨i, hi⟩ := not_forall.mp hzero
      obtain ⟨l, s', hstep, hworker, hless, htasks, -, hwaiting⟩ :=
        exists_step_of_remaining (Nat.pos_of_ne_zero hi)
      have hcensus := census_update Worker.remaining s.worker i (s'.worker i)
      rw [← hworker] at hcensus
      have hlt : census Worker.remaining s'.worker < n := by omega
      obtain ⟨ls, u, hrun, hfree, htasks', hwaiting'⟩ := ih _ hlt rfl
      exact ⟨l :: ls, u, .cons hstep hrun, hfree, htasks'.trans htasks, hwaiting'.trans hwaiting⟩

/-- **When `Wait` returns from a closed pool.** A `Wait` that is about to test whether the queue of
a closed pool is empty can return just when no task is left in it; otherwise it tests the queue
forever, whatever the threads do. -/
theorem wait_returns_iff (hs : s.Reachable) (hclose : s.isClose = true) {k : ℕ}
    (hwaiting : s.waiting = .testing k) :
    (∃ ls u k', Run Step s ls u ∧ u.waiting = .returned k') ↔ s.tasks = [] := by
  constructor
  · rintro ⟨ls, u, k', hrun, hreturned⟩
    by_contra hne
    have hu : Stranded u :=
      hrun.invariant (fun h hstep => hstep.stranded h) ⟨hclose, hne, k, hwaiting⟩
    obtain ⟨k'', hk''⟩ := hu.testing
    rw [hreturned] at hk''
    cases hk''
  · intro hnil
    obtain ⟨ls, u, hrun, hfree, htasks, hwaiting'⟩ := exists_run_free (s := s) rfl
    obtain ⟨ls₀, hrun₀⟩ := hs
    have hu : Accounted u := Reachable.accounted ⟨_, hrun₀.append hrun⟩
    have hbusy : census Worker.busy u.worker = 0 := by
      refine census_eq_zero _ fun i => ?_
      have hi := hfree i
      cases hw : u.worker i with
      | running => simp [hw] at hi
      | ran => simp [hw] at hi
      | _ => rfl
    have hfreeSize : u.freeSize = Fintype.card ι := by
      have hfree := hu.free
      rw [hbusy] at hfree
      simpa using hfree
    have hempty : (u.readEmpty k).waiting = .sawEmpty k := by
      rw [ThreadPool.readEmpty, htasks, hnil]
      rfl
    refine ⟨_, _, k, (hrun.snoc (.readEmpty (hwaiting'.trans hwaiting))).snoc
      (.readFreeSize hempty), ?_⟩
    rw [ThreadPool.readFreeSize, ThreadPool.readEmpty, if_pos hfreeSize]

/-- One worker, which has taken the first of two tasks when the pool is closed: a `Wait` does not
return. -/
theorem wait_returns_iff_left :
    ∃ s : ThreadPool (Fin 1), Run Step init [.push, .push, .enter 0, .close, .wait] s ∧
      s.tasks = [1] ∧
        ((∃ ls u k', Run Step s ls u ∧ u.waiting = .returned k') ↔ s.tasks = []) := by
  have hrun : ∃ s : ThreadPool (Fin 1), Run Step init [.push, .push, .enter 0, .close, .wait] s ∧
      s.isClose = true ∧ s.waiting = .testing 2 ∧ s.tasks = [1] :=
    ⟨_, .cons (.push fun _ => nofun) (.cons (.push fun _ => nofun)
      (.cons (.enter (.inl rfl) fun _ => nofun) (.cons (.close rfl) (.single .wait)))),
      rfl, rfl, rfl⟩
  obtain ⟨s, hrun, hclose, hwaiting, htasks⟩ := hrun
  exact ⟨s, hrun, htasks, wait_returns_iff ⟨_, hrun⟩ hclose hwaiting⟩

end ThreadPool

end MToolkit

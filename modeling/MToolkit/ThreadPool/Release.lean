import MToolkit.ThreadPool.Pool

/-!
# Releasing the pool

`Release` stores `_isClose` and notifies all workers, and does neither with the mutex
held. A worker that has found the predicate of its wait false keeps the mutex until it
sleeps, but that does not keep `Release` out: if both the store and the notification fall
between the test and the sleep, the worker goes to sleep with nobody left to wake it, and
`Release` joins it forever.

That is the only way to hang. As long as `notify_all` finds no worker there, `Release` and
a sleeping worker never meet, and whenever it does find one, the worker's next step is to
sleep through the release (`MToolkit.ThreadPool.release_careful`).
-/

namespace MToolkit

namespace ThreadPool

open Condvar Lts

variable {ι : Type} {s s' : ThreadPool ι}

/-- **A release that hangs**: it joins the workers, and one of them sleeps. -/
def Hangs (s : ThreadPool ι) : Prop := s.releasing = .joining ∧ ∃ i, s.worker i = .asleep

/-- If this step is the `notify_all` of `Release`, no worker is between its test and its
sleep. -/
def Careful (s : ThreadPool ι) : Label ι → Prop
  | .notifyAll => s.Unlocked
  | _ => True

/-- What a release that does not hang brings about. -/
structure Roused (s : ThreadPool ι) : Prop where
  /-- `Release` closes the pool first. -/
  closed : s.releasing ≠ .outside → s.isClose = true
  /-- Once it joins, nobody sleeps or is about to. -/
  awake : s.releasing = .joining → ∀ i, s.worker i ≠ .asleep ∧ s.worker i ≠ .blocking

theorem roused_init [Fintype ι] : Roused (init : ThreadPool ι) :=
  ⟨fun h => absurd rfl h, nofun⟩

theorem Roused.not_hangs (h : Roused s) : ¬s.Hangs := by
  rintro ⟨hjoin, i, hi⟩
  exact (h.awake hjoin i).1 hi

variable [DecidableEq ι]

/-- **Worker `i` moves**, and does not sleep while it is joined. -/
theorem Roused.move (h : Roused s) {i : ι} {w : Worker} {tasks finished : List TaskId}
    {freeSize : ℤ} (hw : s.releasing = .joining → w ≠ .asleep ∧ w ≠ .blocking) :
    Roused { s.move i w with tasks := tasks, freeSize := freeSize, finished := finished } := by
  refine ⟨h.closed, fun hjoin j => ?_⟩
  by_cases hj : j = i
  · subst hj
    simpa using hw hjoin
  · simpa [hj] using h.awake hjoin j

theorem Roused.enter (h : Roused s) (i : ι) : Roused (s.enter i) := by
  by_cases hclose : s.isClose = true
  · rw [enter_of_isClose hclose]
    exact h.move fun _ => ⟨nofun, nofun⟩
  · have hout : s.releasing = .outside := by
      by_contra hrel
      exact hclose (h.closed hrel)
    have hnot : s.releasing ≠ .joining := by simp [hout]
    rw [ThreadPool.enter]
    split
    · exact h.move fun hjoin => absurd hjoin hnot
    · rw [if_neg hclose]
      exact h.move fun hjoin => absurd hjoin hnot

variable [Fintype ι]

/-- A step that takes the `notify_all` of `Release` only with the mutex free. -/
def CarefulStep (s : ThreadPool ι) (l : Label ι) (s' : ThreadPool ι) : Prop :=
  Step s l s' ∧ Careful s l

/-- **One careful step** leaves nobody behind. -/
theorem Step.roused {l : Label ι} (hstep : Step s l s') (hcare : Careful s l) (h : Roused s) :
    Roused s' := by
  cases hstep with
  | push => exact ⟨h.closed, h.awake⟩
  | notifyOne _ hone =>
    refine ⟨h.closed, fun hjoin j => ?_⟩
    cases hone with
    | wake i hi => exact absurd hi (h.awake hjoin i).1
    | none => exact h.awake hjoin j
  | enter => exact h.enter _
  | @sleep i hi => exact h.move fun hjoin => absurd hi (h.awake hjoin i).2
  | @spurious i hi => exact h.move fun hjoin => absurd hi (h.awake hjoin i).1
  | decrement => exact h.move fun _ => ⟨nofun, nofun⟩
  | finish => exact h.move fun _ => ⟨nofun, nofun⟩
  | increment => exact h.move fun _ => ⟨nofun, nofun⟩
  | wait => exact ⟨h.closed, h.awake⟩
  | readEmpty => exact ⟨h.closed, h.awake⟩
  | readFreeSize => exact ⟨h.closed, h.awake⟩
  | close => exact ⟨fun _ => rfl, nofun⟩
  | notifyAll hrel =>
    refine ⟨fun _ => h.closed (by simp [hrel]), fun _ j => ⟨?_, ?_⟩⟩
    · exact notifyAll_ne_asleep (by decide)
    · exact (notifyAll_eq_iff (by decide) (by decide)).not.mpr (hcare j)

/-- Whatever is still to be notified goes to nobody, while nobody sleeps. -/
theorem run_notifyOne {n : ℕ} : ∀ {s : ThreadPool ι}, s.notifying = n →
    (∀ i, s.worker i ≠ .asleep) →
    Run Step s (List.replicate n .notifyOne) { s with notifying := 0 } := by
  induction n with
  | zero =>
    intro s hn _
    have hs : { s with notifying := 0 } = s := by rw [← hn]
    rw [hs]
    exact .nil s
  | succ n ih =>
    intro s hn hawake
    have hstep : Step s .notifyOne { s with notifying := s.notifying - 1 } :=
      .notifyOne (by omega) (.none hawake)
    have hleft : s.notifying - 1 = n := by omega
    exact .cons hstep (ih hleft hawake)

/-- **A worker that is about to sleep sleeps through the release.** Once it does, there is
no notification left to wake it. -/
theorem Step.hangs (hstep : Step s .notifyAll s') {i : ι} (hi : s.worker i = .blocking) :
    ∃ ls u, Run Step s' ls u ∧ u.Hangs ∧ u.notifying = 0 := by
  cases hstep with
  | notifyAll hrel =>
    have hdrain := run_notifyOne (s :=
      { s with worker := Condvar.notifyAll .asleep .notified s.worker, releasing := .joining })
      rfl fun j => notifyAll_ne_asleep (by decide)
    have hblock : Condvar.notifyAll .asleep .notified s.worker i = .blocking :=
      (notifyAll_eq_iff (by decide) (by decide)).mpr hi
    refine ⟨_, _, hdrain.snoc (.sleep hblock), ⟨rfl, i, ?_⟩, rfl⟩
    simp

/-- **When `Release` cannot hang.** In a run in which every `notify_all` finds no worker
between its test and its sleep, `Release` never joins a worker that sleeps. Whenever it
finds one, the threads can go on to a state in which `Release` joins it asleep and no
notification is left. -/
theorem release_careful (ls : List (Label ι)) (u : ThreadPool ι) :
    (Run CarefulStep init ls u → ¬u.Hangs) ∧
      ∀ u', Step u .notifyAll u' → ¬Careful u .notifyAll →
        ∃ ms v, Run Step u' ms v ∧ v.Hangs ∧ v.notifying = 0 := by
  constructor
  · intro hrun
    have hu : Roused u := hrun.invariant (fun h hl => hl.1.roused hl.2 h) roused_init
    exact hu.not_hangs
  · intro u' hstep hcare
    obtain ⟨i, hi⟩ := not_forall.mp hcare
    exact hstep.hangs (not_not.mp hi)

/-- **A release that hangs**: a worker tests the predicate, `Release` stores and notifies,
and then the worker goes to sleep. -/
theorem release_misses_worker :
    ∃ u : ThreadPool (Fin 1), Run Step init [.enter 0, .close, .notifyAll, .sleep 0] u ∧
      u.Hangs ∧ u.notifying = 0 :=
  ⟨_, .cons (.enter (.inl rfl) fun _ => nofun) (.cons (.close rfl) (.cons (.notifyAll rfl)
    (.single (.sleep rfl)))), ⟨rfl, 0, rfl⟩, rfl⟩

end ThreadPool

end MToolkit

import MToolkit.LockContainer.LockQueue

/-!
# Timed pops

After its wait a timed pop goes by the return value of `wait_for`, which says why the wait
ended, and not by the container, which another consumer may have emptied or a producer
filled in the meantime. A run is free of the harm exactly if the two agree whenever a timed
pop takes the mutex again: its time is over if and only if there is no element
(`MToolkit.Clients.timed_pop_sound_iff`).
-/

namespace MToolkit

namespace Clients

open Lts

variable {ι α : Type} [DecidableEq ι] {s s' : Clients ι α}

/-- How the critical section of a timed pop that this step is, ends. -/
def outcome (s : Clients ι α) : Label ι α → Option (Outcome α)
  | .waiAndPop i => some (s.queue.waiAndPopFor i).1
  | .woken i => some (s.queue.waiAndPopWoken i (s.timedOut i)).1
  | _ => none

/-- A timed pop does what it says: it returns true with the front element, which it has
removed, and false if there is none, and it does not read the front of an empty
container. -/
def SoundOutcome (items items' : List α) : Outcome α → Prop
  | .waits => True
  | .popped value => items = value :: items'
  | .failed => items' = []
  | .undefined => False

/-- If this step is one of a timed pop, that is sound. -/
def Sound (s : Clients ι α) (l : Label ι α) (s' : Clients ι α) : Prop :=
  ∀ o, s.outcome l = some o → SoundOutcome s.queue.items s'.queue.items o

/-- If this step is the return of a timed pop from its wait, its time is over exactly if
there is no element. -/
def Timely (s : Clients ι α) : Label ι α → Prop
  | .woken i => s.timedOut i = true ↔ s.queue.items = []
  | _ => True

/-- A step in which timed pops are sound. -/
def SoundStep (s : Clients ι α) (l : Label ι α) (s' : Clients ι α) : Prop :=
  Step s l s' ∧ Sound s l s'

/-- A step in which timed pops return from their waits in time. -/
def TimelyStep (s : Clients ι α) (l : Label ι α) (s' : Clients ι α) : Prop :=
  Step s l s' ∧ Timely s l

/-- Up to its wait, a timed pop is sound. -/
theorem soundOutcome_waiAndPopFor (q : LockQueue ι α) (i : ι) :
    SoundOutcome q.items (q.waiAndPopFor i).2.items (q.waiAndPopFor i).1 := by
  rw [LockQueue.waiAndPopFor, LockList.waitPopFrontFor]
  rcases hitems : q.items with _ | ⟨value, items⟩
  · trivial
  · rfl

/-- **Woken from its wait, a timed pop is sound** exactly if its time is over when there is
no element, and then only. -/
theorem soundOutcome_waiAndPopWoken (q : LockQueue ι α) (i : ι) (timeout : Bool) :
    SoundOutcome q.items (q.waiAndPopWoken i timeout).2.items (q.waiAndPopWoken i timeout).1 ↔
      (timeout = true ↔ q.items = []) := by
  rw [LockQueue.waiAndPopWoken, LockList.waitPopFrontWoken]
  cases timeout with
  | true => simp [SoundOutcome]
  | false => cases q.items <;> simp [SoundOutcome]

/-- **One step** is sound exactly if it is timely. -/
theorem Step.sound_iff {l : Label ι α} (hstep : Step s l s') : Sound s l s' ↔ Timely s l := by
  cases hstep with
  | @waiAndPop i =>
    refine iff_of_true ?_ trivial
    rintro o ho
    rw [← Option.some.inj ho]
    exact soundOutcome_waiAndPopFor s.queue i
  | @woken i =>
    refine Iff.trans ?_ (soundOutcome_waiAndPopWoken s.queue i (s.timedOut i))
    constructor
    · intro hsound
      exact hsound _ rfl
    · rintro hsound o ho
      rw [← Option.some.inj ho]
      exact hsound
  | _ => exact iff_of_true nofun trivial

/-- **When timed pops are sound.** In a run of any number of threads that push and pop, in
any interleaving, every timed pop is sound – it never reads the front of an empty
container, returns true only with the element it has removed, and false only when there is
none – exactly if, whenever one takes the mutex again after its wait, its time is over if
and only if there is no element. -/
theorem timed_pop_sound_iff {ls : List (Label ι α)} {u : Clients ι α} :
    Run SoundStep init ls u ↔ Run TimelyStep init ls u := by
  refine Run.iff_of_invariant (I := fun _ => True) ?_ ?_ trivial
  · exact fun _ => and_congr_right fun hl => hl.sound_iff
  · exact fun _ _ => trivial

/-- **A timed pop reads the front of an empty queue**: two consumers wait, a push wakes both,
and the other one takes the element. -/
theorem timed_pop_undefined :
    ∃ u : Clients (Fin 2) ℕ,
      Run Step init [.waiAndPop 0, .waitAndPop 1, .push 7, .reacquire 1] u ∧
        u.queue.items = [] ∧ u.outcome (.woken 0) = some .undefined ∧
        ∃ u', Step u (.woken 0) u' ∧ ¬Sound u (.woken 0) u' :=
  ⟨_, .cons (.waiAndPop rfl) (.cons (.waitAndPop rfl) (.cons (.push 7)
    (.single (.reacquire rfl rfl)))), rfl, rfl, _, .woken rfl rfl, fun h => h _ rfl⟩

end Clients

end MToolkit

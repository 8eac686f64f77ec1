import Mathlib.Logic.Function.Basic

/-!
# Condition variables

The effect of a notification on the threads of a monitor. What a thread is doing is a
value of an arbitrary type `P`, its program counter, two values of which matter here:
that of a thread *asleep* in a wait, and that of a thread *notified*, which has been
woken and has still to take the lock again. Everything a wait does to the thread itself
is a function update; a notification is sent by another thread, and says nothing about
who is asleep.
-/

namespace Condvar

universe u v

variable {ι : Type u} {P : Type v}

/-- `notify_all`: every sleeper is woken. -/
def notifyAll [DecidableEq P] (asleep notified : P) (pc : ι → P) : ι → P :=
  fun i => if pc i = asleep then notified else pc i

/-- `notify_one`: one sleeper is woken, if there is one. -/
inductive NotifyOne [DecidableEq ι] (asleep notified : P) (pc : ι → P) : (ι → P) → Prop
  | wake (i : ι) : pc i = asleep → NotifyOne asleep notified pc (Function.update pc i notified)
  | none : (∀ i, pc i ≠ asleep) → NotifyOne asleep notified pc pc

variable {asleep notified : P} {pc pc' : ι → P} {i : ι}

theorem notifyAll_ne_asleep [DecidableEq P] (h : notified ≠ asleep) :
    notifyAll asleep notified pc i ≠ asleep := by
  rw [notifyAll]
  split
  · exact h
  · assumption

/-- A notification leaves everyone else where they are. -/
theorem notifyAll_eq_iff [DecidableEq P] {p : P} (ha : p ≠ asleep) (hn : p ≠ notified) :
    notifyAll asleep notified pc i = p ↔ pc i = p := by
  rw [notifyAll]
  split
  · next hi => simp [hi, ha.symm, hn.symm]
  · rfl

/-- What does not tell sleepers from the notified does not see a notification. -/
theorem notifyAll_map_eq [DecidableEq P] {Q : Type*} {f : P → Q} (hf : f notified = f asleep)
    (i : ι) : f (notifyAll asleep notified pc i) = f (pc i) := by
  rw [notifyAll]
  split
  · next hi => rw [hi, hf]
  · rfl

theorem NotifyOne.map_eq [DecidableEq ι] {Q : Type*} {f : P → Q} (hf : f notified = f asleep)
    (h : NotifyOne asleep notified pc pc') (i : ι) : f (pc' i) = f (pc i) := by
  cases h with
  | wake j hj =>
    by_cases hij : i = j
    · subst hij
      rw [Function.update_self, hj, hf]
    · rw [Function.update_of_ne hij]
  | none => rfl

/-- A notification leaves everyone else where they are. -/
theorem NotifyOne.eq_iff [DecidableEq ι] {p : P} (ha : p ≠ asleep) (hn : p ≠ notified)
    (h : NotifyOne asleep notified pc pc') (i : ι) : pc' i = p ↔ pc i = p := by
  cases h with
  | wake j hj =>
    by_cases hij : i = j
    · subst hij
      rw [Function.update_self, hj]
      exact iff_of_false hn.symm ha.symm
    · rw [Function.update_of_ne hij]
  | none => rfl

end Condvar

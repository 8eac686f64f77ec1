import MToolkit.Library.Census

/-!
# Items kept in buckets

A container that spreads its items over finitely many lists, the *buckets*: hash
tables, wheels and sorters all do. What an algorithm on them must not do is lose
or duplicate an item, and that is a statement about the multiset of everything
held, `Buckets.contents`. The two primitive updates – append to one bucket, empty
one bucket – change it in the obvious way (`Buckets.contents_push`,
`Buckets.contents_clear`).
-/

namespace Buckets

open Census

variable {ι α : Type*}

section Update

variable [DecidableEq ι]

/-- Append `x` to bucket `i`. -/
def push (b : ι → List α) (i : ι) (x : α) : ι → List α := Function.update b i (b i ++ [x])

/-- Empty bucket `i`. -/
def clear (b : ι → List α) (i : ι) : ι → List α := Function.update b i []

theorem mem_push {b : ι → List α} {i j : ι} {x y : α} :
    y ∈ push b i x j ↔ y ∈ b j ∨ (j = i ∧ y = x) := by
  by_cases h : j = i
  · subst h
    simp [push]
  · simp [push, h]

theorem mem_clear {b : ι → List α} {i j : ι} {y : α} : y ∈ clear b i j ↔ y ∈ b j ∧ j ≠ i := by
  by_cases h : j = i
  · subst h
    simp [clear]
  · simp [clear, h]

end Update

variable [Fintype ι]

/-- Everything the buckets hold, with multiplicity. -/
@[irreducible] def contents (b : ι → List α) : Multiset α :=
  census (fun l : List α => (l : Multiset α)) b

theorem mem_contents {b : ι → List α} {x : α} : x ∈ contents b ↔ ∃ i, x ∈ b i := by
  simp [contents, mem_census]

@[simp] theorem contents_empty : contents (fun _ : ι => ([] : List α)) = 0 := by
  rw [contents]
  exact census_eq_zero _ fun _ => rfl

variable [DecidableEq ι]

theorem contents_update (b : ι → List α) (i : ι) (l : List α) :
    contents (Function.update b i l) + b i = contents b + l := by
  rw [contents, contents]
  exact census_update _ b i l

/-- Appending to a bucket adds one item. -/
@[simp] theorem contents_push (b : ι → List α) (i : ι) (x : α) :
    contents (push b i x) = x ::ₘ contents b := by
  have h := contents_update b i (b i ++ [x])
  rw [← Multiset.coe_add, ← add_assoc, add_right_comm] at h
  have h' := add_right_cancel h
  rw [push, h', Multiset.coe_singleton, add_comm, Multiset.singleton_add]

/-- Emptying a bucket removes exactly what it held. -/
theorem contents_clear (b : ι → List α) (i : ι) : contents (clear b i) + b i = contents b := by
  have h := contents_update b i []
  rwa [Multiset.coe_nil, add_zero] at h

end Buckets

import Mathlib.Data.List.Nodup
import Mathlib.Data.List.Sublists
import Mathlib.Data.List.Count

/-!
# Sequences that grow at the end

Facts about a list that records events in order. A position in a record that has grown by
one is the new last one or a position in the record as it was
(`List.snoc_eq_append_cons`); and those who each saw some of the events of one record, in its
order, agree on the order of what they both saw (`List.pair_sublist_of_sublist`), which is picked
out by saying what they saw (`List.eq_filter_of_sublist`).
-/

namespace List

universe u

variable {α : Type u}

/-- A position in a list that has grown at the end. -/
theorem snoc_eq_append_cons {l a b : List α} {x y : α} :
    l ++ [x] = a ++ y :: b ↔ (b = [] ∧ a = l ∧ y = x) ∨ ∃ b', b = b' ++ [x] ∧ l = a ++ y :: b' := by
  constructor
  · intro h
    rcases b.eq_nil_or_concat with rfl | ⟨b', z, rfl⟩
    · obtain ⟨rfl, hx⟩ := append_inj' h rfl
      exact .inl ⟨rfl, rfl, (singleton_inj.mp hx).symm⟩
    · rw [concat_eq_append, ← cons_append, ← append_assoc] at h
      obtain ⟨rfl, hx⟩ := append_inj' h rfl
      exact .inr ⟨b', by rw [singleton_inj.mp hx, concat_eq_append], rfl⟩
  · rintro (⟨rfl, rfl, rfl⟩ | ⟨b', rfl, rfl⟩)
    · rfl
    · rw [append_assoc, cons_append]

/-- Fewer elements have a property than a weaker one that some element has alone. -/
theorem countP_lt_countP {l : List α} {p q : α → Bool} (himp : ∀ x ∈ l, p x = true → q x = true)
    {a : α} (ha : a ∈ l) (hp : ¬p a = true) (hq : q a = true) : l.countP p < l.countP q := by
  obtain ⟨l₁, l₂, rfl⟩ := append_of_mem ha
  have hle : ∀ l' : List α, (∀ x ∈ l', x ∈ l₁ ++ a :: l₂) → l'.countP p ≤ l'.countP q :=
    fun l' hl' => countP_mono_left fun x hx => himp x (hl' x hx)
  have h₁ := hle l₁ fun x hx => mem_append_left _ hx
  have h₂ := hle l₂ fun x hx => mem_append_right _ (mem_cons_of_mem a hx)
  rw [countP_append, countP_append, countP_cons_of_neg hp, countP_cons_of_pos hq]
  omega

end List

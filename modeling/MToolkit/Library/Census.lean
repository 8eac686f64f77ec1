import Mathlib.Algebra.BigOperators.Group.Finset.Piecewise
import Mathlib.Algebra.Order.BigOperators.Group.Finset
import Mathlib.Algebra.Order.Group.Multiset
import Mathlib.Data.Fintype.Basic

/-!
# Adding up over threads

Invariants of concurrent programs often balance a shared quantity against a sum over the
threads: how many of them are in a region, or everything they hold. The sum is that of a
function of each thread's program counter, with values in any commutative monoid, and all
that is needed of it is how it changes when one thread moves (`Census.census_update`).
-/

namespace Census

universe u v w

variable {ι : Type u} {P : Type v} {M : Type w} [Fintype ι] [AddCommMonoid M]

/-- The sum of `f` over the program counters of all threads. -/
def census (f : P → M) (pc : ι → P) : M := ∑ i, f (pc i)

/-- One thread moves. -/
theorem census_update [DecidableEq ι] (f : P → M) (pc : ι → P) (i : ι) (p : P) :
    census f (Function.update pc i p) + f (pc i) = census f pc + f p := by
  have hfun : (fun j => f (Function.update pc i p j)) =
      Function.update (fun j => f (pc j)) i (f p) := by
    funext j
    by_cases hj : j = i
    · subst hj
      simp
    · simp [hj]
  rw [census, census, hfun, Finset.sum_update_of_mem (Finset.mem_univ i),
    ← Finset.add_sum_erase Finset.univ (fun j => f (pc j)) (Finset.mem_univ i),
    Finset.sdiff_singleton_eq_erase]
  simp only [add_comm, add_left_comm]

/-- Moves that `f` does not see. -/
theorem census_congr {f : P → M} {pc pc' : ι → P} (h : ∀ i, f (pc' i) = f (pc i)) :
    census f pc' = census f pc :=
  Finset.sum_congr rfl fun i _ => h i

theorem census_eq_zero (pc : ι → P) {f : P → M} (h : ∀ i, f (pc i) = 0) : census f pc = 0 :=
  Finset.sum_eq_zero fun i _ => h i

/-- A count is zero when there is nothing to count. -/
theorem census_eq_zero_iff {f : P → ℕ} {pc : ι → P} : census f pc = 0 ↔ ∀ i, f (pc i) = 0 := by
  simp [census]

/-- What the threads hold together, each holds some of. -/
theorem mem_census {α : Type*} {f : P → Multiset α} {pc : ι → P} {x : α} :
    x ∈ census f pc ↔ ∃ i, x ∈ f (pc i) := by
  simp [census, Multiset.mem_sum]

/-- How often what the threads hold together contains `x`. -/
theorem count_census {α : Type*} [DecidableEq α] (f : P → Multiset α) (pc : ι → P) (x : α) :
    (census f pc).count x = census (fun p => (f p).count x) pc :=
  Multiset.count_sum'

/-- A sum of ones counts. -/
theorem census_ite (p : P → Prop) [DecidablePred p] (pc : ι → P) :
    census (fun q => if p q then 1 else 0) pc = Fintype.card {i // p (pc i)} := by
  rw [census, Fintype.card_subtype, Finset.card_filter]

/-- One more at the end. -/
theorem coe_snoc {α : Type*} (l : List α) (x : α) :
    ((l ++ [x] : List α) : Multiset α) = x ::ₘ l :=
  Multiset.coe_eq_coe.mpr (List.perm_append_singleton x l)

end Census

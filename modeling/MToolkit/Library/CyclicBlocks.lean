import Mathlib.Algebra.Order.Ring.Int
import Mathlib.Data.Int.Basic
import Mathlib.Tactic

/-!
# Cyclic dyadic blocks

A ring of `2 ^ b` cells, each standing for a block of `2 ^ s` consecutive
integers, as a hierarchical clock or wheel uses at each of its levels. The
integer `e` lies in the block that starts at `CyclicBlocks.blockStart s e` and is
written in the cell `CyclicBlocks.index s b e` – the source of such a program spells
it `(e >> s) & ((1 << b) - 1)`.

The cell of an integer does not determine its block, since the ring is cyclic;
it does inside a window of one turn. That is
`CyclicBlocks.blockStart_eq_iff`: of the blocks that start in `[t, t + 2 ^ (s + b))`,
the one starting at `t` is recognized by `t` being a multiple of `2 ^ s` and the
cells agreeing.
-/

namespace CyclicBlocks

/-- The cell of `e` in a ring of `2 ^ b` cells of `2 ^ s` integers each. -/
def index (s b : ℕ) (e : ℤ) : Fin (2 ^ b) :=
  ⟨((e >>> s) % (2 ^ b : ℕ)).toNat, by
    have h : (0 : ℤ) < (2 ^ b : ℕ) := by exact_mod_cast Nat.two_pow_pos b
    have := Int.emod_nonneg (e >>> s) h.ne'
    have := Int.emod_lt_of_pos (e >>> s) h
    omega⟩

/-- The first integer of the block of `2 ^ s` integers that `e` lies in. -/
def blockStart (s : ℕ) (e : ℤ) : ℤ := e / 2 ^ s * 2 ^ s

theorem index_val (s b : ℕ) (e : ℤ) : ((index s b e : ℕ) : ℤ) = e / 2 ^ s % 2 ^ b := by
  have h : (0 : ℤ) < 2 ^ b := by positivity
  have hn := Int.emod_nonneg (e / 2 ^ s) h.ne'
  simp only [index, Int.shiftRight_eq_div_pow, Nat.cast_pow, Nat.cast_ofNat]
  exact Int.toNat_of_nonneg hn

/-- Two integers share a cell exactly when their block numbers agree modulo the
size of the ring. -/
theorem index_eq_iff {s b : ℕ} {d e : ℤ} :
    index s b d = index s b e ↔ d / 2 ^ s % 2 ^ b = e / 2 ^ s % 2 ^ b := by
  rw [Fin.ext_iff, ← index_val, ← index_val]
  exact Int.natCast_inj.symm

theorem index_eq_zero_iff {s b : ℕ} {e : ℤ} :
    ((index s b e : ℕ) = 0) ↔ (2 : ℤ) ^ b ∣ e / 2 ^ s := by
  rw [Int.dvd_iff_emod_eq_zero, ← index_val]
  exact Int.natCast_eq_zero.symm

theorem blockStart_le (s : ℕ) (e : ℤ) : blockStart s e ≤ e :=
  Int.ediv_mul_le e (by positivity)

theorem lt_blockStart_add (s : ℕ) (e : ℤ) : e < blockStart s e + 2 ^ s := by
  have h : (0 : ℤ) < 2 ^ s := by positivity
  have := Int.lt_ediv_add_one_mul_self e h
  rwa [add_mul, one_mul] at this

@[simp] theorem blockStart_zero (e : ℤ) : blockStart 0 e = e := by
  simp [blockStart]

theorem dvd_blockStart (s : ℕ) (e : ℤ) : (2 : ℤ) ^ s ∣ blockStart s e :=
  ⟨e / 2 ^ s, by rw [blockStart, mul_comm]⟩

/-- **Aligned further**: a multiple of `2 ^ s` whose cell is the first one is a
multiple of `2 ^ (s + b)`, and conversely. -/
theorem dvd_add_iff {s b : ℕ} {t : ℤ} (ht : (2 : ℤ) ^ s ∣ t) :
    (2 : ℤ) ^ (s + b) ∣ t ↔ (index s b t : ℕ) = 0 := by
  obtain ⟨k, rfl⟩ := ht
  have h2 : (2 : ℤ) ^ s ≠ 0 := by positivity
  rw [index_eq_zero_iff, Int.mul_ediv_cancel_left _ h2, pow_add]
  exact mul_dvd_mul_iff_left h2

/-- **A window of one turn tells blocks apart**: of the blocks starting in
`[t, t + 2 ^ (s + b))`, the one that starts at `t` itself is the one whose cell
is the cell of `t`, and there is such a block only when `t` is aligned. -/
theorem blockStart_eq_iff {s b : ℕ} {t e : ℤ} (h₁ : t ≤ blockStart s e)
    (h₂ : blockStart s e < t + 2 ^ (s + b)) :
    blockStart s e = t ↔ (2 : ℤ) ^ s ∣ t ∧ index s b e = index s b t := by
  have hs : (0 : ℤ) < 2 ^ s := by positivity
  constructor
  · intro h
    refine ⟨h ▸ dvd_blockStart s e, index_eq_iff.mpr ?_⟩
    rw [← h, blockStart, Int.mul_ediv_cancel _ hs.ne']
  · rintro ⟨⟨k, rfl⟩, hidx⟩
    rw [index_eq_iff, Int.mul_ediv_cancel_left _ hs.ne'] at hidx
    rw [blockStart, mul_comm (e / 2 ^ s)] at h₁ h₂ ⊢
    have hlo : k ≤ e / 2 ^ s := le_of_mul_le_mul_left h₁ hs
    have hhi : e / 2 ^ s < k + 2 ^ b := by
      refine lt_of_mul_lt_mul_left (a := (2 : ℤ) ^ s) ?_ hs.le
      rwa [mul_add, ← pow_add]
    -- the two block numbers are congruent and less than one turn apart
    have hdvd : (2 : ℤ) ^ b ∣ e / 2 ^ s - k :=
      Int.dvd_of_emod_eq_zero (Int.emod_eq_emod_iff_emod_sub_eq_zero.mp hidx)
    have hzero : e / 2 ^ s - k = 0 :=
      Int.eq_zero_of_dvd_of_nonneg_of_lt (by omega) (by omega) hdvd
    rw [sub_eq_zero.mp hzero]

end CyclicBlocks

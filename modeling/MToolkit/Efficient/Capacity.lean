import MToolkit.Efficient.AnnularCache

/-!
# The capacity of an annular cache

The constructor of `AnnularCache` asks for the least power of two that is at least the size it
is given. The disabled loop computes it (`MToolkit.Math.isRoundup_roundupLoop`), and the shift
that took its place does not: the amount is the number of digits of the size plus one, and the
result is two or four times the power of two that was meant, or undefined. There is no size for
which it is right (`MToolkit.AnnularCache.rounding_never`).
-/

namespace MToolkit

namespace AnnularCache

open Math

variable {num r : UInt32}

/-- The power of two returned is not the least one above the number, -/
theorem not_isRoundup (h : 1 ≤ num.toNat) (hr : getRoundupPowerOfTwo num = some r) :
    ¬IsRoundup num.toNat r.toNat := by
  obtain ⟨-, hlt, -⟩ := log2_bounds h
  rintro ⟨-, hleast⟩
  have hle : r.toNat ≤ 2 ^ (num.toNat.log2 + 1) := hleast ⟨⟨_, rfl⟩, hlt.le⟩
  rw [toNat_getRoundupPowerOfTwo h hr] at hle
  exact absurd hle (Nat.not_le.mpr (Nat.pow_lt_pow_right (by decide) (Nat.lt_succ_self _)))

/-- half of it is not below the number, -/
theorem lt_getRoundDownPowerOfTwo (h : 1 ≤ num.toNat)
    (hr : getRoundDownPowerOfTwo num = some r) : num.toNat < r.toNat := by
  obtain ⟨-, hlt, -⟩ := log2_bounds h
  obtain ⟨power, hpower, rfl⟩ := Option.map_eq_some_iff.mp hr
  have hhalf : (power >>> 1).toNat = 2 ^ (num.toNat.log2 + 1) := by
    rw [UInt32.toNat_shiftRight, toNat_getRoundupPowerOfTwo h hpower, UInt32.toNat_one,
      Nat.shiftRight_eq_div_pow]
    exact Nat.mul_div_cancel _ (by decide)
  rwa [hhalf]

/-- and it is more than twice the number. -/
theorem two_mul_lt_capacity (h : 1 ≤ num.toNat) (hr : capacity num = some r) :
    2 * num.toNat < r.toNat := by
  obtain ⟨-, hlt, -⟩ := log2_bounds h
  rw [toNat_getRoundupPowerOfTwo h hr, Nat.pow_succ]
  omega

/-- **The rounding is never right**: for no number of 32 bits but zero is the power of two that
is returned the least one that is at least the number, or the one returned for rounding down
the greatest that is at most the number, or the capacity of a cache of this size at least the
size and less than twice that. The shift is defined below `2 ^ 30`. -/
theorem rounding_never (h : 1 ≤ num.toNat) :
    ¬(∃ r, getRoundupPowerOfTwo num = some r ∧ IsRoundup num.toNat r.toNat) ∧
      (shiftAmount num < 32 ↔ num.toNat < 2 ^ 30) ∧
      ¬(∃ r, getRoundDownPowerOfTwo num = some r ∧ IsRoundDown num.toNat r.toNat) ∧
      ¬∃ r, capacity num = some r ∧ num.toNat ≤ r.toNat ∧ r.toNat < 2 * num.toNat := by
  refine ⟨?_, shiftAmount_lt_iff h, ?_, ?_⟩
  · rintro ⟨r, hr, hround⟩
    exact not_isRoundup h hr hround
  · rintro ⟨r, hr, ⟨-, hle⟩, -⟩
    exact absurd hle (Nat.not_le.mpr (lt_getRoundDownPowerOfTwo h hr))
  · rintro ⟨r, hr, -, hlt⟩
    exact absurd (two_mul_lt_capacity h hr) (Nat.not_lt.mpr hlt.le)

/-- The greatest number for which the shift is defined. -/
theorem rounding_never_limit :
    shiftAmount 0x3fffffff < 32 ∧
      ¬∃ r, getRoundupPowerOfTwo 0x3fffffff = some r ∧
        IsRoundup (0x3fffffff : UInt32).toNat r.toNat := by
  have h : 1 ≤ (0x3fffffff : UInt32).toNat := by decide
  obtain ⟨hround, hshift, -, -⟩ := rounding_never h
  exact ⟨hshift.mpr (by decide), hround⟩

/-- **Rounding 5 up and down**: the results are 16 and 8, and so a cache of 5 bytes has 16. -/
theorem rounding_five :
    getRoundupPowerOfTwo 5 = some 16 ∧ ¬IsRoundup 5 16 ∧ getRoundDownPowerOfTwo 5 = some 8 ∧
      ¬IsRoundDown 5 8 ∧ capacity 5 = some 16 ∧ ¬16 < 2 * 5 := by
  refine ⟨rfl, ?_, rfl, ?_, rfl, by decide⟩
  · rintro ⟨-, hleast⟩
    exact absurd (hleast ⟨⟨3, rfl⟩, by decide⟩ : 16 ≤ 8) (by decide)
  · rintro ⟨⟨-, hle⟩, -⟩
    exact absurd hle (by decide)

end AnnularCache

end MToolkit

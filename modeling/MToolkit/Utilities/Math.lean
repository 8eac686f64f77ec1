import Mathlib.Data.Nat.Log
import Mathlib.Tactic

/-!
# Powers of two

`Math::GetRoundupPowerOfTwo` and `Math::GetRoundDownPowerOfTwo` (`utilities/math.cpp`). The
first shifts a one to the left by an amount it computes from the number of leading zeros; the
`while` loop that it replaces is still there, disabled. Shifting an `int` by its width or more
is undefined.
-/

namespace MToolkit

namespace Math

/-- `__builtin_clz`, the number of leading zeros of a number that is not zero. -/
def clz (num : UInt32) : ℕ := 31 - num.toNat.log2

/-- The amount that `GetRoundupPowerOfTwo` shifts by. -/
def shiftAmount (num : UInt32) : ℕ := 32 - clz num + 1

/-- `Math::GetRoundupPowerOfTwo`; `none` is a shift that is undefined. -/
def getRoundupPowerOfTwo (num : UInt32) : Option UInt32 :=
  if num = 0 then some 1
  else if shiftAmount num < 32 then some (1 <<< UInt32.ofNat (shiftAmount num))
  else none

/-- `Math::GetRoundDownPowerOfTwo`. -/
def getRoundDownPowerOfTwo (num : UInt32) : Option UInt32 :=
  (getRoundupPowerOfTwo num).map fun power : UInt32 => power >>> 1

/-- The disabled loop, with `i` at the value it has when the condition is tested. -/
def roundupLoop (num i : ℕ) : ℕ :=
  if 2 ^ i < num then roundupLoop num (i + 1) else 2 ^ i
  termination_by num - i
  decreasing_by
    have hlt : i < 2 ^ i := Nat.lt_two_pow_self
    omega

variable {num : UInt32}

/-- The least power of two that is at least `n`. -/
def IsRoundup (n p : ℕ) : Prop := IsLeast {q | (∃ k, q = 2 ^ k) ∧ n ≤ q} p

/-- The greatest power of two that is at most `n`. -/
def IsRoundDown (n p : ℕ) : Prop := IsGreatest {q | (∃ k, q = 2 ^ k) ∧ q ≤ n} p

/-- **The disabled loop rounds up**, when no power of two before `2 ^ i` will do. -/
theorem isRoundup_roundupLoop (n i : ℕ) (h : ∀ k < i, 2 ^ k < n) :
    IsRoundup n (roundupLoop n i) := by
  induction i using roundupLoop.induct n with
  | case1 i hlt ih =>
    rw [roundupLoop, if_pos hlt]
    refine ih fun k hk => ?_
    rcases Nat.lt_succ_iff_lt_or_eq.mp hk with hk | rfl
    · exact h k hk
    · exact hlt
  | case2 i hge =>
    rw [roundupLoop, if_neg hge]
    refine ⟨⟨⟨i, rfl⟩, Nat.not_lt.mp hge⟩, ?_⟩
    rintro q ⟨⟨k, rfl⟩, hq⟩
    refine Nat.pow_le_pow_right (by decide) ?_
    by_contra hk
    exact absurd (h k (by omega)) (Nat.not_lt.mpr hq)

/-- A number of 32 bits that is not zero lies between two powers of two. -/
theorem log2_bounds (h : 1 ≤ num.toNat) :
    2 ^ num.toNat.log2 ≤ num.toNat ∧ num.toNat < 2 ^ (num.toNat.log2 + 1) ∧
      num.toNat.log2 ≤ 31 := by
  have hne : num.toNat ≠ 0 := by omega
  refine ⟨Nat.log2_self_le hne, Nat.lt_log2_self, ?_⟩
  have hlt : num.toNat.log2 < 32 := (Nat.log2_lt hne).mpr num.toNat_lt
  omega

/-- **When the shift is defined.** -/
theorem shiftAmount_lt_iff (h : 1 ≤ num.toNat) : shiftAmount num < 32 ↔ num.toNat < 2 ^ 30 := by
  obtain ⟨-, -, hle⟩ := log2_bounds h
  rw [← Nat.log2_lt (by omega), shiftAmount, clz]
  omega

/-- **What is returned** is twice the power of two above the number. -/
theorem toNat_getRoundupPowerOfTwo (h : 1 ≤ num.toNat) {r : UInt32}
    (hr : getRoundupPowerOfTwo num = some r) : r.toNat = 2 ^ (num.toNat.log2 + 2) := by
  obtain ⟨-, -, hle⟩ := log2_bounds h
  have hne : num ≠ 0 := by
    rintro rfl
    simp at h
  rw [getRoundupPowerOfTwo, if_neg hne] at hr
  split_ifs at hr with hshift
  have hamount : shiftAmount num = num.toNat.log2 + 2 := by
    rw [shiftAmount, clz]
    omega
  rw [hamount] at hshift hr
  obtain rfl := Option.some.inj hr
  have hpow : 2 ^ (num.toNat.log2 + 2) < 2 ^ 32 := Nat.pow_lt_pow_right (by decide) hshift
  rw [UInt32.toNat_shiftLeft, UInt32.toNat_ofNat', Nat.mod_mod_of_dvd _ (by decide),
    Nat.mod_eq_of_lt hshift,
    UInt32.toNat_one, Nat.one_shiftLeft, Nat.mod_eq_of_lt hpow]

end Math

end MToolkit

import MToolkit.Utilities.Net

/-!
# Ranges of ports

`AsRange` reads a number as an `unsigned long` and keeps its low 16 bits. One number is thus never
refused, and two are compared by what is left of them: where they are no ports, that they are
refused is a matter of their remainders (`Net.AsRange_iff`).
-/

namespace MToolkit

open Decimal Strings

namespace Net

/-- **The text is read as the range** of two numbers: it is refused when they are no range of
ports, and the head and the tail are these numbers otherwise. -/
def ReadsRange (text : List Char) (a b : ℕ) : Prop :=
  ((AsRange text).1 = true ↔ a ≤ b ∧ b ≤ 65535) ∧
    ((AsRange text).1 = true → (AsRange text).2.1.toNat = a ∧ (AsRange text).2.2.toNat = b)

/-- The low 16 bits of a number, or of the greatest `unsigned long` if that is less. -/
def lowBits (n : ℕ) : ℕ := min n (2 ^ 64 - 1) % 2 ^ 16

variable {ta tb : List Char}

theorem lowBits_eq {n : ℕ} (hn : n ≤ 65535) : lowBits n = n := by
  rw [lowBits]
  omega

theorem toNat_strtoul_toUInt16 (ha : Digits ta) :
    (strtoul (c_str ta)).toUInt16.toNat = lowBits (value ta) := by
  rw [c_str_eq (ha.notMem rfl), UInt64.toNat_toUInt16, ha.toNat_strtoul, lowBits]

/-- One number is its own range. -/
theorem AsRange_single (ha : Digits ta) :
    AsRange ta = (true, (strtoul (c_str ta)).toUInt16, (strtoul (c_str ta)).toUInt16) := by
  rw [AsRange, find_eq_none (ha.notMem rfl)]
  dsimp only
  rw [decide_eq_true UInt16.le_rfl]

theorem AsRange_pair (ha : Digits ta) :
    AsRange (ta ++ '-' :: tb) =
      (decide ((strtoul (c_str ta)).toUInt16 ≤ (strtoul (c_str tb)).toUInt16),
        (strtoul (c_str ta)).toUInt16, (strtoul (c_str tb)).toUInt16) := by
  rw [AsRange, find_append (ha.notMem rfl)]
  dsimp only
  rw [List.take_left, drop_length_succ]

theorem ReadsRange_single (ha : Digits ta) :
    ReadsRange ta (value ta) (value ta) ↔ value ta ≤ 65535 := by
  rw [ReadsRange, AsRange_single ha, toNat_strtoul_toUInt16 ha]
  constructor
  · exact fun h => (h.1.mp rfl).2
  · exact fun h => ⟨iff_of_true rfl ⟨le_rfl, h⟩, fun _ => ⟨lowBits_eq h, lowBits_eq h⟩⟩

theorem ReadsRange_pair (ha : Digits ta) (hb : Digits tb) :
    ReadsRange (ta ++ '-' :: tb) (value ta) (value tb) ↔
      (value ta ≤ value tb ∧ value tb ≤ 65535) ∨ lowBits (value tb) < lowBits (value ta) := by
  have hreturned : (AsRange (ta ++ '-' :: tb)).1 = true ↔
      lowBits (value ta) ≤ lowBits (value tb) := by
    rw [AsRange_pair ha, decide_eq_true_iff, UInt16.le_iff_toNat_le, toNat_strtoul_toUInt16 ha,
      toNat_strtoul_toUInt16 hb]
  rw [ReadsRange, hreturned, AsRange_pair ha, toNat_strtoul_toUInt16 ha,
    toNat_strtoul_toUInt16 hb]
  constructor
  · rintro ⟨hiff, -⟩
    rcases le_or_gt (lowBits (value ta)) (lowBits (value tb)) with hle | hlt
    · exact .inl (hiff.mp hle)
    · exact .inr hlt
  · rintro (⟨hle, hport⟩ | hlt)
    · -- both are ports, of which nothing is cut off
      have hta := lowBits_eq (hle.trans hport)
      have htb := lowBits_eq hport
      exact ⟨iff_of_true (by rw [hta, htb]; exact hle) ⟨hle, hport⟩, fun _ => ⟨hta, htb⟩⟩
    · refine ⟨iff_of_false (not_le.mpr hlt) ?_, fun hle => absurd hlt (not_lt.mpr hle)⟩
      rintro ⟨hle, hport⟩
      rw [lowBits_eq hport, lowBits_eq (hle.trans hport)] at hlt
      exact absurd hle (not_le.mpr hlt)

/-- **When ranges of ports are read as they are written**: one number when it is a port, and two
when they are a range of ports or what is left of the first is greater. -/
theorem AsRange_iff (ta tb : List Char) (ha : Digits ta) (hb : Digits tb) :
    (ReadsRange ta (value ta) (value ta) ↔ value ta ≤ 65535) ∧
      (ReadsRange (ta ++ '-' :: tb) (value ta) (value tb) ↔
        (value ta ≤ value tb ∧ value tb ≤ 65535) ∨ lowBits (value tb) < lowBits (value ta)) :=
  ⟨ReadsRange_single ha, ReadsRange_pair ha hb⟩

/-- `"65536"` is taken for the port 0, and `"1-65538"` for the ports 1 and 2. -/
theorem AsRange_reduced :
    ¬ReadsRange ['6', '5', '5', '3', '6'] 65536 65536 ∧
      ¬ReadsRange (['1'] ++ '-' :: ['6', '5', '5', '3', '8']) 1 65538 := by
  constructor
  · intro h
    exact absurd (h.1.mp (by decide)).2 (by norm_num)
  · intro h
    exact absurd (h.1.mp (by decide)).2 (by norm_num)

/-- `"80"` and `"80-65535"`, which are ports. -/
theorem AsRange_iff_ports :
    ReadsRange ['8', '0'] 80 80 ∧
      ReadsRange (['8', '0'] ++ '-' :: ['6', '5', '5', '3', '5']) 80 65535 := by
  have hiff := AsRange_iff ['8', '0'] ['6', '5', '5', '3', '5'] ⟨List.cons_ne_nil _ _, by simp⟩
    ⟨List.cons_ne_nil _ _, by simp⟩
  exact ⟨hiff.1.mpr (by decide), hiff.2.mpr (.inl (by decide))⟩

end Net

end MToolkit

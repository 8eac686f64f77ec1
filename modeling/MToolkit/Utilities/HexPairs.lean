import MToolkit.Utilities.Hex

/-!
# What the hexadecimal reader reads

`AsHexString2Byte` goes on to the second of two bytes without looking whether there is one. It
stays inside of the text just when the text is spaces and pairs of bytes that do not begin with
one (`String.AsHexString2Byte_inside_iff`), whatever these bytes are.
-/

namespace MToolkit

namespace String

open Pieces

/-- **The text comes in pairs**, with spaces between them. The second of a pair may be a space. -/
inductive Paired : List UInt8 → Prop
  | nil : Paired []
  | space {text : List UInt8} (h : Paired text) : Paired (' '.toUInt8 :: text)
  | pair {text : List UInt8} {c d : UInt8} (hc : ' '.toUInt8 ≠ c) (h : Paired text) :
      Paired (c :: d :: text)

variable {pre text result bytes : List UInt8} {len index : UInt32} {fuel : ℕ}

/-- The loop ends behind the text. -/
theorem loop_done (fuel : ℕ) (hindex : index.toNat = pre.length) (hlen : len.toNat = pre.length) :
    AsHexString2Byte.loop pre len (fuel + 1) index result = some result := by
  have hge : ¬index < len := by
    rw [UInt32.lt_iff_toNat_lt, hindex, hlen]
    exact lt_irrefl _
  rw [AsHexString2Byte.loop, if_neg hge]

/-- **One byte alone** has the loop read behind the text. -/
theorem loop_alone {c : UInt8} (fuel : ℕ) (hc : ' '.toUInt8 ≠ c)
    (hindex : index.toNat = pre.length) (hlen : len.toNat = (pre ++ [c]).length) :
    AsHexString2Byte.loop (pre ++ [c]) len (fuel + 1) index result = none := by
  obtain ⟨hlt, hnext⟩ := lt_len hindex hlen
  have hbehind : (pre ++ [c])[(index + 1).toNat]? = none := by
    rw [hnext]
    exact List.getElem?_eq_none le_rfl
  rw [AsHexString2Byte.loop, if_pos hlt, hindex, getElem?_append_length]
  dsimp only [List.head?_cons]
  rw [if_neg hc, hbehind]

/-- **Pairs are read to their end**, from the index on. -/
theorem exists_loop_paired (h : Paired text) (hindex : index.toNat = pre.length)
    (hlen : len.toNat = (pre ++ text).length) (hfuel : text.length < fuel) :
    ∃ bytes, AsHexString2Byte.loop (pre ++ text) len fuel index result = some bytes := by
  induction h generalizing pre result index fuel with
  | nil =>
    obtain ⟨fuel, rfl⟩ : ∃ k, fuel = k + 1 := ⟨fuel - 1, by omega⟩
    rw [List.append_nil] at hlen ⊢
    exact ⟨result, loop_done fuel hindex hlen⟩
  | space h ih =>
    obtain ⟨fuel, rfl⟩ : ∃ k, fuel = k + 1 := ⟨fuel - 1, by omega⟩
    obtain ⟨-, hnext⟩ := lt_len hindex hlen
    rw [loop_space fuel hindex hlen, List.append_cons]
    rw [List.append_cons] at hlen
    exact ih hnext hlen (Nat.lt_of_succ_lt_succ hfuel)
  | @pair text c d hc h ih =>
    obtain ⟨fuel, rfl⟩ : ∃ k, fuel = k + 1 := ⟨fuel - 1, by omega⟩
    obtain ⟨-, hnext⟩ := lt_len hindex hlen
    rw [loop_pair fuel hc hindex hlen, List.append_cons, List.append_cons (pre ++ [c])]
    rw [List.append_cons] at hlen
    obtain ⟨-, hnext'⟩ := lt_len hnext hlen
    rw [List.append_cons] at hlen
    exact ih hnext' hlen (by simp only [List.length_cons] at hfuel; omega)

/-- **What is read to its end comes in pairs**, by induction on the iterations. -/
theorem paired_of_loop (hindex : index.toNat = pre.length)
    (hlen : len.toNat = (pre ++ text).length)
    (h : AsHexString2Byte.loop (pre ++ text) len fuel index result = some bytes) :
    Paired text := by
  induction fuel generalizing pre text index result with
  | zero => cases h
  | succ fuel ih =>
    rcases text with _ | ⟨c, text⟩
    · exact .nil
    obtain ⟨-, hnext⟩ := lt_len hindex hlen
    rcases eq_or_ne ' '.toUInt8 c with rfl | hc
    · rw [loop_space fuel hindex hlen, List.append_cons] at h
      rw [List.append_cons] at hlen
      exact .space (ih hnext hlen h)
    rcases text with _ | ⟨d, text⟩
    · rw [loop_alone fuel hc hindex hlen] at h
      cases h
    · rw [loop_pair fuel hc hindex hlen, List.append_cons, List.append_cons (pre ++ [c])] at h
      rw [List.append_cons] at hlen
      obtain ⟨-, hnext'⟩ := lt_len hnext hlen
      rw [List.append_cons] at hlen
      exact .pair hc (ih hnext' hlen h)

/-- **The reader stays inside of the text**: with a block of no more than the text it has a result,
as there is none for a read behind the block. -/
def Inside (value : List UInt8) : Prop :=
  ∃ fuel bytes, AsHexString2Byte value value.length.toUInt32 fuel = some bytes

/-- **Which texts are read inside of their length**, of whatever bytes they are. -/
theorem AsHexString2Byte_inside_iff (value : List UInt8) (hvalue : value.length < 2 ^ 32) :
    Inside value ↔ Paired value := by
  have hlen : value.length.toUInt32.toNat = ([] ++ value : List UInt8).length :=
    UInt32.toNat_ofNat_of_lt hvalue
  constructor
  · rintro ⟨fuel, bytes, h⟩
    have hloop : AsHexString2Byte.loop ([] ++ value) value.length.toUInt32 fuel 0 [] =
        some bytes := h
    exact paired_of_loop rfl hlen hloop
  · intro h
    have hloop : ∃ bytes, AsHexString2Byte.loop ([] ++ value) value.length.toUInt32
        (value.length + 1) 0 [] = some bytes := exists_loop_paired h rfl hlen (Nat.lt_succ_self _)
    exact ⟨_, hloop⟩

/-- `"a"`: there is no second digit. -/
theorem AsHexString2Byte_reads_behind : ¬Inside [0x61] := by
  rintro ⟨fuel, bytes, h⟩
  rcases fuel with _ | fuel
  · cases h
  · have hnone : AsHexString2Byte.loop ([] ++ [0x61]) 1 (fuel + 1) 0 [] = none :=
      loop_alone fuel (by decide) rfl rfl
    rw [List.length_singleton] at h
    have heq := h.symm.trans hnone
    cases heq

/-- `"4a "`: a pair and a space. -/
theorem AsHexString2Byte_inside_iff_spaced : Inside [0x34, 0x61, 0x20] :=
  (AsHexString2Byte_inside_iff [0x34, 0x61, 0x20] (by decide)).mpr
    (.pair (by decide) (.space .nil))

end String

end MToolkit

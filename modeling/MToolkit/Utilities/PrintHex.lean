import MToolkit.Utilities.Hex

/-!
# Printing bytes

Both overloads of `PrintHex` print the same (`String.PrintHexBytes_eq`). They look up the digits
of a `char`, which is an `int` by then: where `char` is signed, a byte from 128 on is negative, and
its first digit is looked up before the table. Elsewhere they print what `AsByte2HexString`
returns (`String.PrintHex_agrees_iff`).
-/

namespace MToolkit

namespace String

open Pieces

/-! ### The digits of an `int` -/

theorem toInt_shiftRight_four (x : Int32) : (x >>> 4).toInt = x.toInt / 16 := by
  have h : (x >>> 4).toBitVec = x.toBitVec.sshiftRight 4 := by
    rw [Int32.toBitVec_shiftRight]
    rfl
  rw [← Int32.toInt_toBitVec, h, BitVec.toInt_sshiftRight, Int32.toInt_toBitVec,
    Int.shiftRight_eq_div_pow]
  rfl

theorem toInt_and_fifteen (x : Int32) : (x &&& 0xF).toInt = x.toInt % 16 := by
  have hx := x.toBitVec.isLt
  have h : (x &&& 0xF).toBitVec.toNat = x.toBitVec.toNat % 16 := by
    rw [Int32.toBitVec_and, BitVec.toNat_and]
    exact Nat.and_two_pow_sub_one_eq_mod _ 4
  rw [← Int32.toInt_toBitVec, ← Int32.toInt_toBitVec, BitVec.toInt_eq_toNat_cond,
    BitVec.toInt_eq_toNat_cond, h]
  split_ifs <;> omega

/-- **A signed `char`** is negative from 128 on. -/
theorem toInt_promote (signed : Bool) (c : UInt8) :
    (promote signed c).toInt =
      if signed ∧ 128 ≤ c.toNat then (c.toNat : ℤ) - 256 else c.toNat := by
  have hc := c.toNat_lt
  cases signed with
  | false =>
    have hnat : c.toUInt32.toInt32.toBitVec.toNat = c.toNat := UInt8.toNat_toUInt32 c
    rw [promote, if_neg Bool.false_ne_true, if_neg (by simp), ← Int32.toInt_toBitVec,
      BitVec.toInt_eq_toNat_cond, hnat]
    split_ifs <;> omega
  | true =>
    have hnat : c.toInt8.toBitVec.toNat = c.toNat := rfl
    rw [promote, if_pos rfl, Int8.toInt_toInt32, ← Int8.toInt_toBitVec,
      BitVec.toInt_eq_toNat_cond, hnat]
    simp only [true_and]
    split_ifs <;> omega

/-- The table is the one of the bytes. -/
theorem HEXSTRInt_eq {x : Int32} {i : UInt8} (h : x.toInt = i.toNat) : HEXSTRInt x = HEXSTR i := by
  have hnonneg : ¬x < 0 := by
    rw [Int32.lt_iff_toInt_lt, h, Int32.toInt_zero]
    omega
  rw [HEXSTRInt, if_neg hnonneg, h, Int.toNat_natCast, HEXSTR]

theorem HEXSTRInt_neg {x : Int32} (h : x.toInt < 0) : HEXSTRInt x = none := by
  have hneg : x < 0 := by
    rw [Int32.lt_iff_toInt_lt, Int32.toInt_zero]
    exact h
  rw [HEXSTRInt, if_pos hneg]

/-! ### One byte -/

/-- The byte is one that **`char` can tell from a negative number**. -/
def Plain (signed : Bool) (c : UInt8) : Prop := signed = true → c.toNat < 128

variable {signed : Bool} {c : UInt8} {data pre cout text : List UInt8} {len : UInt32} {fuel : ℕ}

/-- What is printed for such a byte is what is written for it. -/
theorem print_of_plain (h : Plain signed c) (cout : List UInt8) :
    PrintHex.print signed c cout = some (cout ++ hexPair c) := by
  have hint : (promote signed c).toInt = c.toNat := by
    rw [toInt_promote, if_neg]
    rintro ⟨hs, hle⟩
    have hlt := h hs
    omega
  have hhi : HEXSTRInt (promote signed c >>> 4) = HEXSTR (c >>> 4) := by
    refine HEXSTRInt_eq ?_
    rw [toInt_shiftRight_four, hint, toNat_shiftRight_four]
    rfl
  have hlo : HEXSTRInt (promote signed c &&& 0xF) = HEXSTR (c &&& 0xF) := by
    refine HEXSTRInt_eq ?_
    rw [toInt_and_fifteen, hint, toNat_and_fifteen]
    rfl
  obtain ⟨hi, lo, hhex, hhex', hpair, -, -⟩ := exists_hexPair c
  rw [PrintHex.print, hhi, hlo, hhex, hhex', hpair]

/-- **Any other byte** is looked up before the table. -/
theorem print_of_not_plain (h : ¬Plain signed c) (cout : List UInt8) :
    PrintHex.print signed c cout = none := by
  have hc := c.toNat_lt
  simp only [Plain, Classical.not_imp, not_lt] at h
  have hhi : HEXSTRInt (promote signed c >>> 4) = none := by
    refine HEXSTRInt_neg ?_
    rw [toInt_shiftRight_four, toInt_promote, if_pos h]
    omega
  rw [PrintHex.print, hhi]

/-! ### Whole strings -/

theorem PrintHex_of_plain (h : ∀ c ∈ data, Plain signed c) (cout : List UInt8) :
    PrintHex signed data cout = some (cout ++ data.flatMap hexPair) := by
  induction data generalizing cout with
  | nil => exact congrArg some (List.append_nil cout).symm
  | cons c data ih =>
    have hdata := ih (fun d hd => h d (List.mem_cons_of_mem c hd)) (cout ++ hexPair c)
    rw [PrintHex] at hdata ⊢
    rw [List.foldlM_cons, print_of_plain (h c List.mem_cons_self), List.flatMap_cons,
      ← List.append_assoc]
    exact hdata

/-- **What is printed to its end** has no other bytes. -/
theorem plain_of_PrintHex (h : PrintHex signed data cout = some text) :
    ∀ c ∈ data, Plain signed c := by
  induction data generalizing cout with
  | nil => exact fun c hc => absurd hc List.not_mem_nil
  | cons d data ih =>
    rw [PrintHex, List.foldlM_cons] at h
    by_cases hd : Plain signed d
    · rw [print_of_plain hd] at h
      intro c hc
      rcases List.mem_cons.mp hc with rfl | hc
      · exact hd
      · exact ih h c hc
    · rw [print_of_not_plain hd] at h
      cases h

/-- **The overloads print the same**, by induction on what the index has not come to. -/
theorem loop_PrintHex (hlen : len.toNat = (pre ++ data).length) (hbound : len.toNat < 2 ^ 31)
    (hfuel : data.length < fuel) :
    PrintHexBytes.loop signed (pre ++ data) len fuel pre.length cout =
      PrintHex signed data cout := by
  induction data generalizing pre cout fuel with
  | nil =>
    obtain ⟨fuel, rfl⟩ : ∃ k, fuel = k + 1 := ⟨fuel - 1, by omega⟩
    rw [List.append_nil] at hlen
    rw [PrintHexBytes.loop, hlen, if_neg (lt_irrefl _)]
    rfl
  | cons c data ih =>
    obtain ⟨fuel, rfl⟩ : ∃ k, fuel = k + 1 := ⟨fuel - 1, by omega⟩
    have hlt : pre.length < len.toNat := by
      rw [hlen, List.length_append, List.length_cons]
      omega
    have hnext : pre.length + 1 = (pre ++ [c]).length := by
      rw [List.length_append]
      rfl
    rw [PrintHexBytes.loop, if_pos hlt, getElem?_append_length, PrintHex, List.foldlM_cons]
    dsimp only [List.head?_cons]
    cases PrintHex.print signed c cout with
    | none => rfl
    | some cout =>
      dsimp only
      rw [if_pos (by omega), hnext, List.append_cons]
      rw [List.append_cons] at hlen
      exact ih hlen (Nat.lt_of_succ_lt_succ hfuel)

theorem PrintHexBytes_eq (hlen : data.length < 2 ^ 31) (hfuel : data.length < fuel) :
    PrintHexBytes signed data data.length.toUInt32 cout fuel = PrintHex signed data cout := by
  have hlen' : data.length.toUInt32.toNat = ([] ++ data : List UInt8).length :=
    UInt32.toNat_ofNat_of_lt (show data.length < 2 ^ 32 by omega)
  have hbound : data.length.toUInt32.toNat < 2 ^ 31 := by
    rw [hlen', List.nil_append]
    exact hlen
  have hloop : PrintHexBytes.loop signed ([] ++ data) data.length.toUInt32 fuel 0 cout =
      PrintHex signed data cout := loop_PrintHex hlen' hbound hfuel
  exact hloop

/-- **The printers agree** with `AsByte2HexString`, behind what has been printed. -/
def PrintersAgree (signed : Bool) (data : List UInt8) : Prop :=
  ∃ text, (∃ fuel, AsByte2HexString data data.length.toUInt32 fuel = some text) ∧
    ∀ cout, PrintHex signed data cout = some (cout ++ text) ∧
      ∃ fuel, PrintHexBytes signed data data.length.toUInt32 cout fuel = some (cout ++ text)

/-- **Where the printers agree**: everywhere if `char` is unsigned, and on the bytes below 128 if
it is signed. -/
theorem PrintHex_agrees_iff (signed : Bool) (data : List UInt8) (hlen : data.length < 2 ^ 31) :
    PrintersAgree signed data ↔ (signed = true → ∀ c ∈ data, c.toNat < 128) := by
  constructor
  · rintro ⟨text, -, hprint⟩ hs c hc
    exact plain_of_PrintHex (hprint []).1 c hc hs
  · intro h
    have hplain : ∀ c ∈ data, Plain signed c := fun c hc hs => h hs c hc
    refine ⟨data.flatMap hexPair, AsByte2HexString_eq hlen, fun cout => ?_⟩
    have hprint := PrintHex_of_plain hplain cout
    exact ⟨hprint, data.length + 1, (PrintHexBytes_eq hlen (Nat.lt_succ_self _)).trans hprint⟩

/-- The byte 255, of a signed `char`. -/
theorem PrintHex_before_table : ¬PrintersAgree true [0xFF] := by
  rintro ⟨text, -, hprint⟩
  have hnone : PrintHex true [0xFF] [] = none := rfl
  have hsome := (hprint []).1
  rw [hnone] at hsome
  cases hsome

/-- The byte 255, of an unsigned `char`. -/
theorem PrintHex_agrees_iff_unsigned : PrintersAgree false [0xFF] :=
  (PrintHex_agrees_iff false [0xFF] (by decide)).mpr nofun

end String

end MToolkit

import MToolkit.Utilities.String

/-!
# Bytes as hexadecimal digits

A text spells some bytes when it has two digits for each, in either case, with spaces around them
(`MToolkit.String.Spells`). `AsHexString2Byte` reads every spelling, and what `AsByte2HexString`
writes is one (`MToolkit.String.hex_round_trip`).
-/

namespace MToolkit

namespace String

open Pieces

/-! ### Digits -/

/-- A hexadecimal digit, in either case. -/
inductive Digit : UInt8 → ℕ → Prop
  /-- From `'0'` on. -/
  | decimal {c : UInt8} {n : ℕ} (hn : n < 10) (hc : c.toNat = 0x30 + n) : Digit c n
  /-- From `'A'` on. -/
  | upper {c : UInt8} {n : ℕ} (hn : n < 6) (hc : c.toNat = 0x41 + n) : Digit c (n + 10)
  /-- From `'a'` on. -/
  | lower {c : UInt8} {n : ℕ} (hn : n < 6) (hc : c.toNat = 0x61 + n) : Digit c (n + 10)

variable {c d : UInt8} {m n : ℕ}

theorem Digit.lt (h : Digit c n) : n < 16 := by
  cases h <;> omega

/-- A digit is no space. -/
theorem Digit.ne_space (h : Digit c n) : ' '.toUInt8 ≠ c := by
  rintro rfl
  have hspace : ' '.toUInt8.toNat = 0x20 := rfl
  rcases h with ⟨-, hc⟩ | ⟨-, hc⟩ | ⟨-, hc⟩ <;> omega

theorem toNat_sub_char {a b : UInt8} (hle : b.toNat ≤ a.toNat) :
    (a - b).toNat = a.toNat - b.toNat :=
  UInt8.toNat_sub_of_le a b (UInt8.le_iff_toNat_le.2 hle)

/-- **A digit is read.** -/
theorem toNat_asc2nibble (h : Digit c n) : (asc2nibble c).toNat = n := by
  have h0 : '0'.toUInt8.toNat = 0x30 := rfl
  have h9 : '9'.toUInt8.toNat = 0x39 := rfl
  have hA : 'A'.toUInt8.toNat = 0x41 := rfl
  have hF : 'F'.toUInt8.toNat = 0x46 := rfl
  have ha : 'a'.toUInt8.toNat = 0x61 := rfl
  have hf : 'f'.toUInt8.toNat = 0x66 := rfl
  have hten : (10 : UInt8).toNat = 10 := rfl
  simp only [asc2nibble, ge_iff_le, UInt8.le_iff_toNat_le, h0, h9, hA, hF, ha, hf]
  rcases h with ⟨hn, hc⟩ | ⟨hn, hc⟩ | ⟨hn, hc⟩
  · rw [if_pos (by omega), toNat_sub_char (by omega)]
    omega
  · rw [if_neg (by omega), if_pos (by omega), UInt8.toNat_add, toNat_sub_char (by omega), hA, hc,
      Nat.add_sub_cancel_left, hten]
    exact Nat.mod_eq_of_lt (by omega)
  · rw [if_neg (by omega), if_neg (by omega), if_pos (by omega), UInt8.toNat_add,
      toNat_sub_char (by omega), ha, hc, Nat.add_sub_cancel_left, hten]
    exact Nat.mod_eq_of_lt (by omega)

/-- **A digit is written**, in upper case. -/
theorem exists_HEXSTR (i : UInt8) (hi : i.toNat < 16) :
    ∃ c, HEXSTR i = some c ∧ Digit c i.toNat := by
  rw [HEXSTR]
  generalize i.toNat = n at hi
  by_cases hn : n < 10
  · refine ⟨UInt8.ofNat (0x30 + n), ?_, .decimal hn ?_⟩
    · interval_cases n <;> rfl
    · exact (UInt8.toNat_ofNat' ..).trans (Nat.mod_eq_of_lt (by omega))
  · obtain ⟨k, rfl⟩ : ∃ k, n = k + 10 := ⟨n - 10, by omega⟩
    have hk : k < 6 := by omega
    refine ⟨UInt8.ofNat (0x41 + k), ?_, .upper hk ?_⟩
    · interval_cases k <;> rfl
    · exact (UInt8.toNat_ofNat' ..).trans (Nat.mod_eq_of_lt (by omega))

/-- The two digits are put together. -/
theorem toNat_nibbles (hc : Digit c m) (hd : Digit d n) :
    (((asc2nibble c).toUInt32 <<< 4 ||| (asc2nibble d).toUInt32).toUInt8).toNat = 16 * m + n := by
  have hm := hc.lt
  have hn := hd.lt
  have hfour : (4 : UInt32).toNat % 32 = 4 := rfl
  simp only [UInt32.toNat_toUInt8, UInt32.toNat_or, UInt32.toNat_shiftLeft, UInt8.toNat_toUInt32,
    toNat_asc2nibble hc, toNat_asc2nibble hd, hfour]
  have hshift : m <<< 4 = 16 * m := by
    rw [Nat.shiftLeft_eq]
    omega
  have hor : m <<< 4 ||| n = 16 * m + n := by
    rw [← Nat.shiftLeft_add_eq_or_of_lt (by omega), hshift]
  rw [Nat.mod_eq_of_lt (by omega : m <<< 4 < 2 ^ 32), hor]
  omega

/-! ### Texts -/

/-- **The text spells the bytes.** -/
inductive Spells : List UInt8 → List UInt8 → Prop
  | nil : Spells [] []
  | space {text bytes : List UInt8} (h : Spells text bytes) : Spells (' '.toUInt8 :: text) bytes
  | byte {text bytes : List UInt8} {c d b : UInt8} {m n : ℕ} (hc : Digit c m) (hd : Digit d n)
      (hb : b.toNat = 16 * m + n) (h : Spells text bytes) : Spells (c :: d :: text) (b :: bytes)

variable {pre text bytes result : List UInt8} {len index : UInt32}

/-- The index is not at the end, and goes on. -/
theorem lt_len {c : UInt8} (hindex : index.toNat = pre.length)
    (hlen : len.toNat = (pre ++ c :: text).length) :
    index < len ∧ (index + 1).toNat = (pre ++ [c]).length := by
  have hlt := len.toNat_lt
  rw [List.length_append, List.length_cons] at hlen
  rw [UInt32.lt_iff_toNat_lt, UInt32.toNat_add, UInt32.toNat_one, List.length_append,
    List.length_singleton, hindex]
  exact ⟨by omega, Nat.mod_eq_of_lt (by omega)⟩

/-- A space is passed over. -/
theorem loop_space (fuel : ℕ) (hindex : index.toNat = pre.length)
    (hlen : len.toNat = (pre ++ ' '.toUInt8 :: text).length) :
    AsHexString2Byte.loop (pre ++ ' '.toUInt8 :: text) len (fuel + 1) index result =
      AsHexString2Byte.loop (pre ++ ' '.toUInt8 :: text) len fuel (index + 1) result := by
  rw [AsHexString2Byte.loop, if_pos (lt_len hindex hlen).1, hindex, getElem?_append_length]
  exact if_pos rfl

/-- Two bytes are read, of which the first is no space, and the index goes over both. -/
theorem loop_pair {c d : UInt8} (fuel : ℕ) (hc : ' '.toUInt8 ≠ c)
    (hindex : index.toNat = pre.length) (hlen : len.toNat = (pre ++ c :: d :: text).length) :
    AsHexString2Byte.loop (pre ++ c :: d :: text) len (fuel + 1) index result =
      AsHexString2Byte.loop (pre ++ c :: d :: text) len fuel (index + 1 + 1)
        (result ++ [((asc2nibble c).toUInt32 <<< 4 ||| (asc2nibble d).toUInt32).toUInt8]) := by
  obtain ⟨hlt, hnext⟩ := lt_len hindex hlen
  rw [AsHexString2Byte.loop, if_pos hlt, hindex, getElem?_append_length]
  dsimp only [List.head?_cons]
  rw [if_neg hc, hnext, List.append_cons pre c, getElem?_append_length]
  dsimp only [List.head?_cons]

/-- Two digits are the byte that they spell. -/
theorem loop_byte {b : UInt8} (fuel : ℕ) (hc : Digit c m) (hd : Digit d n)
    (hb : b.toNat = 16 * m + n) (hindex : index.toNat = pre.length)
    (hlen : len.toNat = (pre ++ c :: d :: text).length) :
    AsHexString2Byte.loop (pre ++ c :: d :: text) len (fuel + 1) index result =
      AsHexString2Byte.loop (pre ++ c :: d :: text) len fuel (index + 1 + 1) (result ++ [b]) := by
  have hdata : ((asc2nibble c).toUInt32 <<< 4 ||| (asc2nibble d).toUInt32).toUInt8 = b :=
    UInt8.toNat_inj.1 ((toNat_nibbles hc hd).trans hb.symm)
  rw [loop_pair fuel hc.ne_space hindex hlen, hdata]

/-- **The loop reads every spelling**, from the index on. -/
theorem loop_spells (h : Spells text bytes) {fuel : ℕ} (hindex : index.toNat = pre.length)
    (hlen : len.toNat = (pre ++ text).length) (hfuel : text.length < fuel) :
    AsHexString2Byte.loop (pre ++ text) len fuel index result = some (result ++ bytes) := by
  induction h generalizing pre result index fuel with
  | nil =>
    obtain ⟨fuel, rfl⟩ : ∃ k, fuel = k + 1 := ⟨fuel - 1, by omega⟩
    rw [List.append_nil] at hlen
    have hge : ¬index < len := by
      rw [UInt32.lt_iff_toNat_lt, hindex, hlen]
      exact lt_irrefl _
    rw [AsHexString2Byte.loop, if_neg hge, List.append_nil]
  | space h ih =>
    obtain ⟨fuel, rfl⟩ : ∃ k, fuel = k + 1 := ⟨fuel - 1, by omega⟩
    obtain ⟨-, hnext⟩ := lt_len hindex hlen
    rw [loop_space fuel hindex hlen, List.append_cons]
    rw [List.append_cons] at hlen
    exact ih hnext hlen (Nat.lt_of_succ_lt_succ hfuel)
  | @byte text bytes c d b m n hc hd hb h ih =>
    obtain ⟨fuel, rfl⟩ : ∃ k, fuel = k + 1 := ⟨fuel - 1, by omega⟩
    obtain ⟨-, hnext⟩ := lt_len hindex hlen
    rw [loop_byte fuel hc hd hb hindex hlen, List.append_cons, List.append_cons (pre ++ [c])]
    rw [List.append_cons] at hlen
    obtain ⟨-, hnext'⟩ := lt_len hnext hlen
    rw [List.append_cons] at hlen
    rw [ih hnext' hlen (by simp only [List.length_cons] at hfuel; omega), List.append_assoc]
    rfl

theorem exists_AsHexString2Byte (h : Spells text bytes) (hlen : text.length < 2 ^ 31) :
    ∃ fuel, AsHexString2Byte text text.length.toUInt32 fuel = some bytes := by
  have hlen' : text.length.toUInt32.toNat = ([] ++ text : List UInt8).length :=
    UInt32.toNat_ofNat_of_lt (hlen.trans (by norm_num))
  have hloop : AsHexString2Byte.loop ([] ++ text) text.length.toUInt32 (text.length + 1) 0 [] =
      some ([] ++ bytes) := loop_spells h rfl hlen' (Nat.lt_succ_self _)
  exact ⟨_, hloop⟩

/-! ### Writing -/

/-- A byte, from its two digits. -/
theorem toNat_shiftRight_four (b : UInt8) : (b >>> 4).toNat = b.toNat / 16 := by
  rw [UInt8.toNat_shiftRight]
  exact Nat.shiftRight_eq_div_pow b.toNat 4

theorem toNat_and_fifteen (b : UInt8) : (b &&& 0xF).toNat = b.toNat % 16 := by
  rw [UInt8.toNat_and]
  exact Nat.and_two_pow_sub_one_eq_mod b.toNat 4

/-- **What is written for a byte.** -/
def hexPair (b : UInt8) : List UInt8 :=
  [(HEXSTR (b >>> 4)).getD 0, (HEXSTR (b &&& 0xF)).getD 0, ' '.toUInt8]

/-- The two digits of a byte are in the table. -/
theorem exists_hexPair (b : UInt8) :
    ∃ c d, HEXSTR (b >>> 4) = some c ∧ HEXSTR (b &&& 0xF) = some d ∧
      hexPair b = [c, d, ' '.toUInt8] ∧ Digit c (b.toNat / 16) ∧ Digit d (b.toNat % 16) := by
  have hb := b.toNat_lt
  have hhi := toNat_shiftRight_four b
  have hlo := toNat_and_fifteen b
  obtain ⟨c, hc, hdigit⟩ := exists_HEXSTR (b >>> 4) (by omega)
  obtain ⟨d, hd, hdigit'⟩ := exists_HEXSTR (b &&& 0xF) (by omega)
  rw [hhi] at hdigit
  rw [hlo] at hdigit'
  refine ⟨c, d, hc, hd, ?_, hdigit, hdigit'⟩
  rw [hexPair, hc, hd, Option.getD_some, Option.getD_some]

/-- It is a spelling. -/
theorem spells_hexPairs (bytes : List UInt8) : Spells (bytes.flatMap hexPair) bytes := by
  induction bytes with
  | nil => exact .nil
  | cons b bytes ih =>
    obtain ⟨c, d, -, -, hpair, hc, hd⟩ := exists_hexPair b
    have hvalue : b.toNat = 16 * (b.toNat / 16) + b.toNat % 16 := by omega
    rw [List.flatMap_cons, hpair]
    exact .byte hc hd hvalue (.space ih)

theorem length_hexPairs (bytes : List UInt8) :
    (bytes.flatMap hexPair).length = 3 * bytes.length := by
  induction bytes with
  | nil => rfl
  | cons b bytes ih =>
    rw [List.flatMap_cons, List.length_append, ih, List.length_cons]
    have hpair : (hexPair b).length = 3 := rfl
    omega

/-- **The loop writes the bytes**, from the index on. -/
theorem loop_hexPairs {fuel : ℕ} (hlen : len.toNat = (pre ++ bytes).length)
    (hbound : len.toNat < 2 ^ 31) (hfuel : bytes.length < fuel) :
    AsByte2HexString.loop (pre ++ bytes) len fuel pre.length result =
      some (result ++ bytes.flatMap hexPair) := by
  induction bytes generalizing pre result fuel with
  | nil =>
    obtain ⟨fuel, rfl⟩ : ∃ k, fuel = k + 1 := ⟨fuel - 1, by omega⟩
    rw [List.append_nil] at hlen
    rw [AsByte2HexString.loop, hlen, if_neg (lt_irrefl _), List.flatMap_nil, List.append_nil]
  | cons b bytes ih =>
    obtain ⟨fuel, rfl⟩ : ∃ k, fuel = k + 1 := ⟨fuel - 1, by omega⟩
    obtain ⟨c, d, hhex, hhex', hpair, -, -⟩ := exists_hexPair b
    have hlt : pre.length < len.toNat := by
      rw [hlen, List.length_append, List.length_cons]
      omega
    have hnext : pre.length + 1 = (pre ++ [b]).length := by
      rw [List.length_append]
      rfl
    have hlen' := hlen
    rw [List.append_cons] at hlen'
    rw [AsByte2HexString.loop, if_pos hlt, getElem?_append_length]
    dsimp only [List.head?_cons]
    rw [hhex, hhex']
    dsimp only
    rw [if_pos (by omega), hnext, List.append_cons, ih hlen' (Nat.lt_of_succ_lt_succ hfuel),
      List.append_assoc, List.flatMap_cons, hpair]

theorem AsByte2HexString_eq (hlen : bytes.length < 2 ^ 31) :
    ∃ fuel, AsByte2HexString bytes bytes.length.toUInt32 fuel =
      some (bytes.flatMap hexPair) := by
  have hlen' : bytes.length.toUInt32.toNat = ([] ++ bytes : List UInt8).length :=
    UInt32.toNat_ofNat_of_lt (show bytes.length < 2 ^ 32 by omega)
  have hbound : bytes.length.toUInt32.toNat < 2 ^ 31 := by
    rw [hlen', List.nil_append]
    exact hlen
  have hloop : AsByte2HexString.loop ([] ++ bytes) bytes.length.toUInt32 (bytes.length + 1) 0 [] =
      some ([] ++ bytes.flatMap hexPair) := loop_hexPairs hlen' hbound (Nat.lt_succ_self _)
  exact ⟨_, hloop⟩

/-- **Reading undoes every spelling**, and writing is one. -/
theorem hex_round_trip :
    (∀ text bytes, Spells text bytes → text.length < 2 ^ 31 →
      ∃ fuel, AsHexString2Byte text text.length.toUInt32 fuel = some bytes) ∧
    ∀ bytes : List UInt8, 3 * bytes.length < 2 ^ 31 →
      ∃ fuel text, AsByte2HexString bytes bytes.length.toUInt32 fuel = some text ∧
        text.length = 3 * bytes.length ∧
          ∃ fuel, AsHexString2Byte text text.length.toUInt32 fuel = some bytes := by
  refine ⟨fun text bytes h hlen => exists_AsHexString2Byte h hlen, fun bytes hbound => ?_⟩
  have hlen := length_hexPairs bytes
  have hshort : bytes.length < 2 ^ 31 := by omega
  obtain ⟨fuel, hloop⟩ := AsByte2HexString_eq hshort
  exact ⟨fuel, _, hloop, hlen,
    exists_AsHexString2Byte (spells_hexPairs bytes) (hlen.trans_lt hbound)⟩

/-- `" 4a1B "`, and the bytes `0` and `255`. -/
theorem hex_round_trip_mixed :
    (∃ fuel, AsHexString2Byte [0x20, 0x34, 0x61, 0x31, 0x42, 0x20] 6 fuel = some [0x4A, 0x1B]) ∧
    ∃ fuel text, AsByte2HexString [0, 255] 2 fuel = some text ∧ text.length = 6 ∧
      ∃ fuel, AsHexString2Byte text text.length.toUInt32 fuel = some [0, 255] := by
  refine ⟨hex_round_trip.1 [0x20, 0x34, 0x61, 0x31, 0x42, 0x20] [0x4A, 0x1B] ?_ (by decide),
    hex_round_trip.2 [0, 255] (by decide)⟩
  have h4 : Digit 0x34 4 := .decimal (by decide) rfl
  have ha : Digit 0x61 10 := .lower (n := 0) (by decide) rfl
  have h1 : Digit 0x31 1 := .decimal (by decide) rfl
  have hB : Digit 0x42 11 := .upper (n := 1) (by decide) rfl
  exact .space (.byte h4 ha rfl (.byte h1 hB rfl (.space .nil)))

end String

end MToolkit

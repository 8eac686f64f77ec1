import Mathlib.Tactic

/-!
# Words of four octets

A word of 32 bits is its four octets (`Octets.octet_injective`), and the word with its octets in
the other order is `Octets.byteSwap`. Two words compare as the highest octets in which they
differ do (`Octets.le_iff_highest`), and with their octets swapped as the lowest ones do
(`Octets.byteSwap_le_iff_lowest`). The words with the same first bits are a block of their order
(`Octets.Block`).
-/

namespace Octets

/-! ### The octets of a word -/

/-- An octet of a word, counted from the lowest one. -/
def octet (v : UInt32) (i : ℕ) : ℕ := v.toNat / 256 ^ i % 256

/-- The word of four octets, with the highest one first. -/
def ofOctets (a b c d : ℕ) : UInt32 := UInt32.ofNat (a * 2 ^ 24 + b * 2 ^ 16 + c * 2 ^ 8 + d)

/-- **The word with its octets in the other order.** -/
def byteSwap (v : UInt32) : UInt32 := ofOctets (octet v 0) (octet v 1) (octet v 2) (octet v 3)

variable {v w : UInt32} {a b c d i j : ℕ}

theorem octet_lt (v : UInt32) (i : ℕ) : octet v i < 256 := Nat.mod_lt _ (by norm_num)

theorem octets_lt (v : UInt32) :
    octet v 0 < 256 ∧ octet v 1 < 256 ∧ octet v 2 < 256 ∧ octet v 3 < 256 :=
  ⟨octet_lt v 0, octet_lt v 1, octet_lt v 2, octet_lt v 3⟩

theorem toNat_ofOctets (ha : a < 256) (hb : b < 256) (hc : c < 256) (hd : d < 256) :
    (ofOctets a b c d).toNat = a * 2 ^ 24 + b * 2 ^ 16 + c * 2 ^ 8 + d :=
  UInt32.toNat_ofNat_of_lt' (by norm_num; omega)

/-- A word is made up of its octets. -/
theorem toNat_eq (v : UInt32) :
    v.toNat = octet v 3 * 2 ^ 24 + octet v 2 * 2 ^ 16 + octet v 1 * 2 ^ 8 + octet v 0 := by
  have hv := v.toNat_lt
  simp only [octet]
  norm_num
  omega

theorem ofOctets_octet (v : UInt32) :
    ofOctets (octet v 3) (octet v 2) (octet v 1) (octet v 0) = v := by
  refine UInt32.toNat_inj.mp ?_
  rw [toNat_ofOctets (octet_lt v 3) (octet_lt v 2) (octet_lt v 1) (octet_lt v 0), ← toNat_eq]

/-- **A word is its octets.** -/
theorem octet_injective (h : ∀ i < 4, octet v i = octet w i) : v = w := by
  rw [← ofOctets_octet v, ← ofOctets_octet w, h 0 (by norm_num), h 1 (by norm_num),
    h 2 (by norm_num), h 3 (by norm_num)]

/-- The octets are read off the word that they make up. -/
theorem octet_ofOctets (ha : a < 256) (hb : b < 256) (hc : c < 256) (hd : d < 256) :
    octet (ofOctets a b c d) 3 = a ∧ octet (ofOctets a b c d) 2 = b ∧
      octet (ofOctets a b c d) 1 = c ∧ octet (ofOctets a b c d) 0 = d := by
  simp only [octet, toNat_ofOctets ha hb hc hd]
  norm_num
  omega

theorem octet_of_le (hi : 4 ≤ i) : octet v i = 0 := by
  have hpow : 256 ^ 4 ≤ 256 ^ i := Nat.pow_le_pow_right (by norm_num) hi
  have hlt : v.toNat < 256 ^ i := v.toNat_lt.trans_le (by norm_num at hpow ⊢; exact hpow)
  rw [octet, Nat.div_eq_of_lt hlt]

/-! ### Swapping -/

theorem octet_byteSwap (v : UInt32) (hi : i < 4) : octet (byteSwap v) i = octet v (3 - i) := by
  obtain ⟨h3, h2, h1, h0⟩ :=
    octet_ofOctets (octet_lt v 0) (octet_lt v 1) (octet_lt v 2) (octet_lt v 3)
  interval_cases i
  · exact h0
  · exact h1
  · exact h2
  · exact h3

theorem byteSwap_byteSwap (v : UInt32) : byteSwap (byteSwap v) = v := by
  refine octet_injective fun i hi => ?_
  rw [octet_byteSwap _ hi, octet_byteSwap _ (by omega), Nat.sub_sub_self (by omega)]

theorem byteSwap_inj : byteSwap v = byteSwap w ↔ v = w := by
  constructor
  · intro h
    rw [← byteSwap_byteSwap v, h, byteSwap_byteSwap]
  · rintro rfl
    rfl

theorem pow_octet (i : ℕ) : 256 ^ i = 2 ^ (8 * i) := by
  rw [pow_mul]
  norm_num

theorem octet_or (v w : UInt32) (i : ℕ) : octet (v ||| w) i = octet v i ||| octet w i := by
  rw [octet, octet, octet, UInt32.toNat_or, pow_octet, Nat.or_div_two_pow]
  exact Nat.or_mod_two_pow (n := 8)

theorem octet_not (v : UInt32) (hi : i < 4) : octet (~~~v) i = 255 - octet v i := by
  have hv := v.toNat_lt
  rw [octet, octet, UInt32.toNat_not, UInt32.size]
  interval_cases i <;> norm_num <;> omega

/-- **Swapping goes through the bitwise operations.** -/
theorem byteSwap_or (v w : UInt32) : byteSwap (v ||| w) = byteSwap v ||| byteSwap w := by
  refine octet_injective fun i hi => ?_
  rw [octet_or, octet_byteSwap _ hi, octet_byteSwap _ hi, octet_byteSwap _ hi, octet_or]

theorem byteSwap_not (v : UInt32) : byteSwap (~~~v) = ~~~byteSwap v := by
  refine octet_injective fun i hi => ?_
  rw [octet_not _ hi, octet_byteSwap _ hi, octet_byteSwap _ hi, octet_not _ (by omega)]

/-! ### The order of words -/

/-- The highest octets in which the words differ. -/
def Highest (v w : UInt32) (i : ℕ) : Prop :=
  octet v i ≠ octet w i ∧ ∀ j, i < j → octet v j = octet w j

/-- The lowest octets in which the words differ. -/
def Lowest (v w : UInt32) (i : ℕ) : Prop :=
  octet v i ≠ octet w i ∧ ∀ j < i, octet v j = octet w j

theorem lt_four (h : octet v i ≠ octet w i) : i < 4 := by
  by_contra hle
  rw [octet_of_le (not_lt.mp hle), octet_of_le (not_lt.mp hle)] at h
  exact h rfl

/-- **The order is that of the highest octets that differ.** -/
theorem le_iff_highest (h : Highest v w i) : v ≤ w ↔ octet v i < octet w i := by
  obtain ⟨hne, habove⟩ := h
  have hi := lt_four hne
  have h3 : i < 3 → octet v 3 = octet w 3 := habove 3
  have h2 : i < 2 → octet v 2 = octet w 2 := habove 2
  have h1 : i < 1 → octet v 1 = octet w 1 := habove 1
  obtain ⟨hv0, hv1, hv2, hv3⟩ := octets_lt v
  obtain ⟨hw0, hw1, hw2, hw3⟩ := octets_lt w
  rw [UInt32.le_iff_toNat_le, toNat_eq v, toNat_eq w]
  interval_cases i <;> omega

/-- The highest octets of the swapped words are the lowest ones. -/
theorem highest_byteSwap (h : Lowest v w i) : Highest (byteSwap v) (byteSwap w) (3 - i) := by
  obtain ⟨hne, hbelow⟩ := h
  have hi := lt_four hne
  refine ⟨?_, fun j hj => ?_⟩
  · rw [octet_byteSwap _ (by omega), octet_byteSwap _ (by omega), Nat.sub_sub_self (by omega)]
    exact hne
  · rcases lt_or_ge j 4 with hlt | hge
    · rw [octet_byteSwap _ hlt, octet_byteSwap _ hlt]
      exact hbelow _ (by omega)
    · rw [octet_of_le hge, octet_of_le hge]

theorem byteSwap_le_iff_lowest (h : Lowest v w i) :
    byteSwap v ≤ byteSwap w ↔ octet v i < octet w i := by
  have hi := lt_four h.1
  rw [le_iff_highest (highest_byteSwap h), octet_byteSwap _ (by omega),
    octet_byteSwap _ (by omega), Nat.sub_sub_self (by omega)]

/-- Two words that are not the same have such octets. -/
theorem exists_lowest (h : v ≠ w) : ∃ i, Lowest v w i := by
  have hdiff : ∃ i, octet v i ≠ octet w i := by
    by_contra hno
    push Not at hno
    exact h (octet_injective fun i _ => hno i)
  refine ⟨Nat.find hdiff, Nat.find_spec hdiff, fun j hj => ?_⟩
  exact not_not.mp (Nat.find_min hdiff hj)

theorem exists_highest (h : v ≠ w) : ∃ i, Highest v w i := by
  obtain ⟨i, hne, hbelow⟩ := exists_lowest (v := byteSwap v) (w := byteSwap w)
    (fun heq => h (byteSwap_inj.mp heq))
  have hlow := highest_byteSwap ⟨hne, hbelow⟩
  rw [byteSwap_byteSwap, byteSwap_byteSwap] at hlow
  exact ⟨3 - i, hlow⟩

/-! ### Blocks of words -/

/-- The words whose first bits are those of a word, where the other `k` bits may be any. -/
def Block (v : UInt32) (k : ℕ) (x : UInt32) : Prop := x.toNat / 2 ^ k = v.toNat / 2 ^ k

theorem or_two_pow_sub_one (n k : ℕ) : n ||| (2 ^ k - 1) = n / 2 ^ k * 2 ^ k + (2 ^ k - 1) := by
  have hlt : 2 ^ k - 1 < 2 ^ k := Nat.sub_lt (Nat.two_pow_pos k) one_pos
  have hdiv : (n ||| (2 ^ k - 1)) / 2 ^ k = n / 2 ^ k := by
    rw [Nat.or_div_two_pow, Nat.div_eq_of_lt hlt, Nat.or_zero]
  have hmod : (n ||| (2 ^ k - 1)) % 2 ^ k = 2 ^ k - 1 := by
    refine le_antisymm (Nat.le_sub_one_of_lt (Nat.mod_lt _ (Nat.two_pow_pos k))) ?_
    rw [Nat.or_mod_two_pow, Nat.mod_eq_of_lt hlt]
    exact Nat.right_le_or
  have hsplit := Nat.div_add_mod (n ||| (2 ^ k - 1)) (2 ^ k)
  rw [hdiv, hmod, Nat.mul_comm] at hsplit
  exact hsplit.symm

/-- A block lies between its ends. -/
theorem block_iff (v x : UInt32) (k : ℕ) :
    Block v k x ↔ v.toNat / 2 ^ k * 2 ^ k ≤ x.toNat ∧
      x.toNat ≤ v.toNat / 2 ^ k * 2 ^ k + (2 ^ k - 1) := by
  have hpos := Nat.two_pow_pos k
  rw [Block, Nat.div_eq_iff hpos]
  omega

/-- **The words from one on, up to the end of its block**, are the block when it is the first. -/
theorem forall_between_iff {v m : UInt32} {k : ℕ} (hm : m.toNat = 2 ^ k - 1) :
    (∀ x, v ≤ x ∧ x ≤ v ||| m ↔ Block v k x) ↔ 2 ^ k ∣ v.toNat := by
  have hdiv := Nat.div_add_mod v.toNat (2 ^ k)
  rw [Nat.mul_comm] at hdiv
  have hlast : (v ||| m).toNat = v.toNat / 2 ^ k * 2 ^ k + (2 ^ k - 1) := by
    rw [UInt32.toNat_or, hm, or_two_pow_sub_one]
  constructor
  · intro h
    -- the first word of the block is not below the word
    have hfirst : v.toNat / 2 ^ k * 2 ^ k < 2 ^ 32 := by
      have hv := v.toNat_lt
      omega
    have hx : (UInt32.ofNat (v.toNat / 2 ^ k * 2 ^ k)).toNat = v.toNat / 2 ^ k * 2 ^ k :=
      UInt32.toNat_ofNat_of_lt' hfirst
    have hle := ((h _).mpr ((block_iff v _ k).mpr ⟨hx.ge, by omega⟩)).1
    rw [UInt32.le_iff_toNat_le, hx] at hle
    exact Nat.dvd_of_mod_eq_zero (by omega)
  · intro h x
    have hzero := Nat.mod_eq_zero_of_dvd h
    rw [UInt32.le_iff_toNat_le, UInt32.le_iff_toNat_le, hlast, block_iff]
    omega

end Octets

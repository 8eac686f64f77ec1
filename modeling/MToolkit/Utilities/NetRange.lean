import MToolkit.Utilities.NetAddress

/-!
# Ranges of addresses

The two overloads that read a range of addresses differ in the order of the octets. They agree on
one address and on a prefix, as swapping goes through what is done there to the bits; but two
addresses are compared as they are, so that in network order the lowest octets come first
(`Net.Agree_iff`).

A prefix is read as the addresses from the one in front of the slash to the end of its block,
which is the block only if that address is its first (`Net.DenotesBlock_iff`).
-/

namespace MToolkit

open Decimal Octets DottedQuad Strings

namespace Net

variable {inet : Inet} {ta tb te : List Char} {v w : UInt32}

/-! ### Prefixes -/

/-- The mask of a prefix leaves the bits behind it. -/
theorem toNat_not_mask {e : ℕ} (he : e ≤ 32) (hpos : 0 < e) :
    (~~~((0xFFFFFFFF : UInt32) <<< (32 - e).toUInt32)).toNat = 2 ^ (32 - e) - 1 := by
  interval_cases e <;> rfl

/-- The bits behind the prefix, in the byte order. -/
def hostBits (order : UInt32 → UInt32) (e : ℕ) : UInt32 :=
  ~~~(if e = 0 then 0 else order (0xFFFFFFFF <<< (32 - e).toUInt32))

theorem toNat_hostBits {e : ℕ} (he : e ≤ 32) : (hostBits id e).toNat = 2 ^ (32 - e) - 1 := by
  rw [hostBits]
  split_ifs with h0
  · rw [h0]
    rfl
  · exact toNat_not_mask he (Nat.pos_of_ne_zero h0)

theorem hostBits_byteSwap (e : ℕ) : hostBits byteSwap e = byteSwap (hostBits id e) := by
  rw [hostBits, hostBits, byteSwap_not]
  split_ifs with h0
  · rfl
  · rfl

/-- There is no separator in a dotted quad. -/
theorem notMem_separator (h : Quad ta v) : '-' ∉ ta ∧ '/' ∉ ta :=
  ⟨h.notMem rfl (by decide), h.notMem rfl (by decide)⟩

/-- **A prefix is read**, where its length is at most 32. -/
theorem AsByteRange_prefixLength {as : List Char → UInt32} {order : UInt32 → UInt32}
    {head tail : UInt32} (ha : Quad ta v) (he : Digits te) (hle : value te ≤ 32) :
    AsByteRange as order (ta ++ '/' :: te) head tail =
      (true, as ta, as ta ||| hostBits order (value te)) := by
  obtain ⟨hdash, hslash⟩ := notMem_separator ha
  have hdash' : '-' ∉ ta ++ '/' :: te := notMem_append_cons hdash (by decide) (he.notMem rfl)
  have hlong : strtol te = value te := by
    rw [he.strtol_eq]
    omega
  have hte : c_str te = te := c_str_eq (he.notMem rfl)
  have hsub : ((32 : ℤ) - value te).toNat = 32 - value te := by omega
  rw [AsByteRange_mask hdash' hslash (he.notMem rfl), hte, hlong, c_str_quad ha]
  dsimp only
  rw [if_neg (by omega), hsub, hostBits]
  simp only [Nat.cast_eq_zero]

/-- **Two addresses are compared**, behind either separator. -/
theorem AsByteRange_pair {as : List Char → UInt32} {order : UInt32 → UInt32} {head tail : UInt32}
    (ha : Quad ta v) (hb : Quad tb w) :
    AsByteRange as order (ta ++ '-' :: tb) head tail = (decide (as ta ≤ as tb), as ta, as tb) ∧
      AsByteRange as order (ta ++ '/' :: tb) head tail =
        (decide (as ta ≤ as tb), as ta, as tb) := by
  obtain ⟨hdash, hslash⟩ := notMem_separator ha
  have hdash' : '-' ∉ ta ++ '/' :: tb :=
    notMem_append_cons hdash (by decide) (notMem_separator hb).1
  constructor
  · rw [AsByteRange_dash hdash, c_str_quad ha, c_str_quad hb]
  · rw [AsByteRange_slash hdash' hslash hb.dot_mem, c_str_quad ha, c_str_quad hb]

/-! ### The two byte orders -/

/-- The results are **the same up to the byte order**: what is returned is the same, and where it
is true the heads and the tails are swapped. -/
def Swapped (net host : Bool × UInt32 × UInt32) : Prop :=
  net.1 = host.1 ∧
    (host.1 = true → net.2.1 = byteSwap host.2.1 ∧ net.2.2 = byteSwap host.2.2)

/-- **The overloads agree on a text**, whatever the head and the tail are before. -/
def Agree (inet : Inet) (text : List Char) : Prop :=
  ∀ head tail head' tail',
    Swapped (AsNetByteRange inet text head tail) (AsHostByteRange inet text head' tail')

/-- What is computed alike agrees just when what is returned does. -/
theorem swapped_iff {b c : Bool} {head tail : UInt32} :
    Swapped (b, byteSwap head, byteSwap tail) (c, head, tail) ↔ b = c :=
  ⟨fun h => h.1, fun h => ⟨h, fun _ => ⟨rfl, rfl⟩⟩⟩

/-- The highest and the lowest octets in which two addresses differ **compare the same way**. -/
def SameOrder (v w : UInt32) : Prop :=
  ∀ i j, Highest v w i → Lowest v w j → (octet v i < octet w i ↔ octet v j < octet w j)

theorem sameOrder_iff (v w : UInt32) :
    SameOrder v w ↔ (byteSwap v ≤ byteSwap w ↔ v ≤ w) := by
  rcases eq_or_ne v w with rfl | hne
  · exact iff_of_true (fun i j hi _ => absurd rfl hi.1)
      (iff_of_true UInt32.le_rfl UInt32.le_rfl)
  · obtain ⟨i, hi⟩ := exists_highest hne
    obtain ⟨j, hj⟩ := exists_lowest hne
    rw [le_iff_highest hi, byteSwap_le_iff_lowest hj]
    constructor
    · exact fun h => (h i j hi hj).symm
    · intro h i' j' hi' hj'
      rw [← le_iff_highest hi', ← byteSwap_le_iff_lowest hj', le_iff_highest hi,
        byteSwap_le_iff_lowest hj, h]

/-- **Where the byte orders agree**: on every address and on every prefix, and on two addresses
just when the octets in which they differ first and last compare the same way. -/
theorem Agree_iff (inet : Inet) (hhost : inet.HostOrder) (hnet : inet.NetOrder) :
    (∀ ta v, Quad ta v → Agree inet ta) ∧
      (∀ ta v te, Quad ta v → Digits te → value te ≤ 32 → Agree inet (ta ++ '/' :: te)) ∧
        ∀ ta v tb w, Quad ta v → Quad tb w →
          (Agree inet (ta ++ '-' :: tb) ↔ SameOrder v w) ∧
            (Agree inet (ta ++ '/' :: tb) ↔ SameOrder v w) := by
  refine ⟨fun ta v ha head tail head' tail' => ?_,
    fun ta v te ha he hle head tail head' tail' => ?_, fun ta v tb w ha hb => ?_⟩
  · obtain ⟨hdash, hslash⟩ := notMem_separator ha
    rw [AsNetByteRange, AsHostByteRange, AsByteRange_single hdash hslash,
      AsByteRange_single hdash hslash, c_str_quad ha, AsNetByte_quad hnet ha,
      AsHostByte_quad hhost ha, swapped_iff]
  · rw [AsNetByteRange, AsHostByteRange, AsByteRange_prefixLength ha he hle,
      AsByteRange_prefixLength ha he hle, AsNetByte_quad hnet ha, AsHostByte_quad hhost ha,
      hostBits_byteSwap, ← byteSwap_or, swapped_iff]
  · have hpair : ∀ text : List Char,
        (∀ (as : List Char → UInt32) (order : UInt32 → UInt32) (head tail : UInt32),
          AsByteRange as order text head tail = (decide (as ta ≤ as tb), as ta, as tb)) →
        (Agree inet text ↔ SameOrder v w) := by
      intro text htext
      simp only [Agree, AsNetByteRange, AsHostByteRange, htext, AsNetByte_quad hnet ha,
        AsNetByte_quad hnet hb, AsHostByte_quad hhost ha, AsHostByte_quad hhost hb, swapped_iff,
        forall_const, decide_eq_decide]
      exact (sameOrder_iff v w).symm
    exact ⟨hpair _ fun _ _ _ _ => (AsByteRange_pair ha hb).1,
      hpair _ fun _ _ _ _ => (AsByteRange_pair ha hb).2⟩

/-- `"1.0.0.2"` and `"2.0.0.1"`: the first octets compare one way and the last ones the other. -/
theorem Agree_low_octets :
    Quad ['1', '.', '0', '.', '0', '.', '2'] 0x01000002 ∧
      Quad ['2', '.', '0', '.', '0', '.', '1'] 0x02000001 ∧
        ¬Agree quadInet (['1', '.', '0', '.', '0', '.', '2'] ++ '-' ::
          ['2', '.', '0', '.', '0', '.', '1']) := by
  refine ⟨quad_iff.mpr (by decide), quad_iff.mpr (by decide), fun h => ?_⟩
  exact absurd (h 0 0 0 0).1 (by decide)

/-- `"10.1.2.3"`, `"10.1.2.3/8"` and `"10.1.2.3-10.2.2.3"`, which differ in one octet. -/
theorem Agree_iff_ten :
    Agree quadInet ['1', '0', '.', '1', '.', '2', '.', '3'] ∧
      Agree quadInet (['1', '0', '.', '1', '.', '2', '.', '3'] ++ '/' :: ['8']) ∧
        (Agree quadInet (['1', '0', '.', '1', '.', '2', '.', '3'] ++ '-' ::
          ['1', '0', '.', '2', '.', '2', '.', '3']) ↔ SameOrder 0x0A010203 0x0A020203) := by
  have hv : Quad ['1', '0', '.', '1', '.', '2', '.', '3'] 0x0A010203 := quad_iff.mpr (by decide)
  have hw : Quad ['1', '0', '.', '2', '.', '2', '.', '3'] 0x0A020203 := quad_iff.mpr (by decide)
  have h := Agree_iff quadInet quadInet_hostOrder quadInet_netOrder
  refine ⟨h.1 _ _ hv, h.2.1 _ _ ['8'] hv ⟨List.cons_ne_nil _ _, ?_⟩ (by decide),
    (h.2.2 _ _ _ _ hv hw).1⟩
  simp

/-! ### Blocks -/

/-- **The text denotes the block** of the addresses that agree with one in their first `e` bits. -/
def DenotesBlock (inet : Inet) (text : List Char) (v : UInt32) (e : ℕ) : Prop :=
  ∀ head tail, ∃ first last,
    AsHostByteRange inet text head tail = (true, first, last) ∧
      last.toNat + 1 = first.toNat + 2 ^ (32 - e) ∧
        ∀ x, first ≤ x ∧ x ≤ last ↔ Block v (32 - e) x

/-- **A prefix denotes its block** just when the address in front of it has no bits behind it. -/
theorem DenotesBlock_iff (inet : Inet) (hinet : inet.HostOrder) (ta te : List Char) (v : UInt32)
    (ha : Quad ta v) (he : Digits te) (hle : value te ≤ 32) :
    DenotesBlock inet (ta ++ '/' :: te) v (value te) ↔ 2 ^ (32 - value te) ∣ v.toNat := by
  have hrange : ∀ head tail, AsHostByteRange inet (ta ++ '/' :: te) head tail =
      (true, v, v ||| hostBits id (value te)) := by
    intro head tail
    rw [AsHostByteRange, AsByteRange_prefixLength ha he hle, AsHostByte_quad hinet ha]
  have hbits := toNat_hostBits hle
  constructor
  · intro h
    obtain ⟨first, last, heq, -, hblock⟩ := h 0 0
    rw [hrange] at heq
    simp only [Prod.mk.injEq, true_and] at heq
    obtain ⟨rfl, rfl⟩ := heq
    exact (forall_between_iff hbits).mp hblock
  · intro h head tail
    refine ⟨v, _, hrange head tail, ?_, (forall_between_iff hbits).mpr h⟩
    have hpos := Nat.two_pow_pos (32 - value te)
    rw [UInt32.toNat_or, hbits, or_two_pow_sub_one, Nat.div_mul_cancel h]
    omega

/-- `"10.0.0.5/24"` leaves out the first five addresses of its block. -/
theorem DenotesBlock_inside :
    Quad ['1', '0', '.', '0', '.', '0', '.', '5'] 0x0A000005 ∧
      ¬DenotesBlock quadInet (['1', '0', '.', '0', '.', '0', '.', '5'] ++ '/' :: ['2', '4'])
        0x0A000005 24 := by
  have heval : AsHostByteRange quadInet
      (['1', '0', '.', '0', '.', '0', '.', '5'] ++ '/' :: ['2', '4']) 0 0 =
        (true, 0x0A000005, 0x0A0000FF) := by decide
  refine ⟨quad_iff.mpr (by decide), fun h => ?_⟩
  obtain ⟨first, last, heq, -, hblock⟩ := h 0 0
  rw [heval] at heq
  simp only [Prod.mk.injEq, true_and] at heq
  obtain ⟨rfl, rfl⟩ := heq
  have hlow := ((hblock 0x0A000000).mpr rfl).1
  exact absurd hlow (by decide)

/-- `"10.0.0.0/8"`, which is a block. -/
theorem DenotesBlock_iff_ten :
    DenotesBlock quadInet (['1', '0', '.', '0', '.', '0', '.', '0'] ++ '/' :: ['8'])
      0x0A000000 8 := by
  have hdigits : Digits ['8'] := ⟨List.cons_ne_nil _ _, by simp⟩
  refine (DenotesBlock_iff quadInet quadInet_hostOrder ['1', '0', '.', '0', '.', '0', '.', '0']
    ['8'] 0x0A000000 (quad_iff.mpr (by decide)) hdigits (by decide)).mpr ?_
  decide

end Net

end MToolkit

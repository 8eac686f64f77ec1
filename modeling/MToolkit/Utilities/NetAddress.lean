import MToolkit.Utilities.Net

/-!
# Addresses as text

`AsString` writes the dotted quad of a word (`Net.AsString_eq`), so it undoes the `AsHostByte` of
a dotted quad and is undone by it (`Net.AsString_inverse`).
-/

namespace MToolkit

open Octets DottedQuad Strings

namespace Net

variable {inet : Inet} {text : List Char} {v : UInt32}

/-- What the shift and the mask leave is an octet. -/
theorem toNat_shiftRight_and (v : UInt32) {k : UInt32} {i : ℕ} (hk : k.toNat % 32 = 8 * i) :
    ((v >>> k) &&& 0xFF).toNat = octet v i := by
  have hmask : (0xFF : UInt32).toNat = 2 ^ 8 - 1 := rfl
  rw [UInt32.toNat_and, UInt32.toNat_shiftRight, hk, hmask, Nat.and_two_pow_sub_one_eq_mod,
    Nat.shiftRight_eq_div_pow, octet, pow_octet]

/-- **The dotted quad is written.** -/
theorem AsString_eq (v : UInt32) : AsString v = quad v := by
  have h3 : ((v >>> 24) &&& 0xFF).toNat = octet v 3 := toNat_shiftRight_and v rfl
  have h2 : ((v >>> 16) &&& 0xFF).toNat = octet v 2 := toNat_shiftRight_and v rfl
  have h1 : ((v >>> 8) &&& 0xFF).toNat = octet v 1 := toNat_shiftRight_and v rfl
  have h0 : ((v >>> 0) &&& 0xFF).toNat = octet v 0 := toNat_shiftRight_and v rfl
  rw [AsString, h3, h2, h1, h0, quad, List.intercalate]
  simp only [List.intersperse_cons_cons, List.intersperse_singleton, List.flatten_cons,
    List.flatten_nil, List.append_nil, List.append_assoc]

/-- There is no null character in a dotted quad. -/
theorem c_str_quad (h : Quad text v) : c_str text = text :=
  c_str_eq (h.notMem rfl (by decide))

theorem AsHostByte_quad (hinet : inet.HostOrder) (h : Quad text v) : AsHostByte inet text = v := by
  rw [AsHostByte, hinet text v h, Option.getD_some]

theorem AsNetByte_quad (hinet : inet.NetOrder) (h : Quad text v) :
    AsNetByte inet text = byteSwap v := by
  rw [AsNetByte, hinet text v h, Option.getD_some]

/-- **Writing and reading an address are inverse**, between the words and their dotted quads. -/
theorem AsString_inverse (inet : Inet) (hinet : inet.HostOrder) :
    (∀ v, AsHostByte inet (c_str (AsString v)) = v) ∧ (∀ v, Quad (AsString v) v) ∧
      ∀ text v, Quad text v → AsString (AsHostByte inet text) = text := by
  have hquad : ∀ v, Quad (AsString v) v := by
    intro v
    rw [AsString_eq]
    exact quad_quad v
  refine ⟨fun v => ?_, hquad, fun text v h => ?_⟩
  · rw [c_str_quad (hquad v), AsHostByte_quad hinet (hquad v)]
  · rw [AsHostByte_quad hinet h, AsString_eq, quad_iff.mp h]

/-- `"10.0.0.255"`, both ways. -/
theorem AsString_inverse_ten :
    AsHostByte quadInet (c_str (AsString 0x0A0000FF)) = 0x0A0000FF ∧
      AsString (AsHostByte quadInet ['1', '0', '.', '0', '.', '0', '.', '2', '5', '5']) =
        ['1', '0', '.', '0', '.', '0', '.', '2', '5', '5'] := by
  have h := AsString_inverse quadInet quadInet_hostOrder
  refine ⟨h.1 0x0A0000FF, h.2.2 _ 0x0A0000FF (quad_iff.mpr ?_)⟩
  decide

end Net

end MToolkit

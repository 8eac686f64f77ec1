import Mathlib.Data.Nat.Digits.Defs
import Mathlib.Tactic

/-!
# Values in memory

How the values of a type of fixed size lie in memory, as bytes: a `Layout` writes each value
to as many bytes as every other, and reads it back from these and from no others. Bytes that are
written for no value have no reading. Numbers are laid out with the least significant byte first.
-/

/-- How the values of a type lie in memory. -/
structure Layout (α : Type*) where
  /-- The number of bytes of a value. -/
  size : ℕ
  encode : α → List UInt8
  decode : List UInt8 → Option α
  length_encode : ∀ a, (encode a).length = size
  decode_eq_some : ∀ {bytes a}, decode bytes = some a ↔ encode a = bytes

namespace Layout

attribute [simp] length_encode

/-! ### Little-endian numbers -/

/-- The `n` least significant bytes of a number, the least significant first. -/
def leBytes : ℕ → ℕ → List UInt8
  | 0, _ => []
  | n + 1, x => UInt8.ofNat x :: leBytes n (x / 256)

/-- The number whose bytes are given, the least significant first. -/
def leNat (bytes : List UInt8) : ℕ := Nat.ofDigits 256 (bytes.map UInt8.toNat)

@[simp] theorem length_leBytes (n x : ℕ) : (leBytes n x).length = n := by
  induction n generalizing x with
  | zero => rfl
  | succ n ih => rw [leBytes, List.length_cons, ih]

/-- As much of a number is read back as has been written. -/
theorem leNat_leBytes (n x : ℕ) : leNat (leBytes n x) = x % 256 ^ n := by
  induction n generalizing x with
  | zero => simp [leBytes, leNat, Nat.mod_one]
  | succ n ih =>
    have hbyte : (UInt8.ofNat x).toNat = x % 256 := UInt8.toNat_ofNat'
    rw [leBytes, leNat, List.map_cons, Nat.ofDigits_cons, hbyte]
    change x % 256 + 256 * leNat (leBytes n (x / 256)) = x % 256 ^ (n + 1)
    rw [ih, Nat.pow_succ', Nat.mod_mul]

/-- A number of at most `n` bytes is read back. -/
theorem leNat_leBytes_of_lt {n x : ℕ} (h : x < 256 ^ n) : leNat (leBytes n x) = x := by
  rw [leNat_leBytes, Nat.mod_eq_of_lt h]

theorem leNat_lt (bytes : List UInt8) : leNat bytes < 256 ^ bytes.length := by
  have hlt := Nat.ofDigits_lt_base_pow_length (b := 256) (l := bytes.map UInt8.toNat) (by decide)
    (by simpa using fun b _ => UInt8.toNat_lt b)
  rwa [List.length_map] at hlt

/-- The bytes of the number that bytes stand for are these. -/
theorem leBytes_leNat (bytes : List UInt8) : leBytes bytes.length (leNat bytes) = bytes := by
  induction bytes with
  | nil => rfl
  | cons b bytes ih =>
    have hcons : leNat (b :: bytes) = b.toNat + 256 * leNat bytes := by
      rw [leNat, List.map_cons, Nat.ofDigits_cons]
      rfl
    have hlt : b.toNat < 256 := b.toNat_lt
    have hhead : UInt8.ofNat (leNat (b :: bytes)) = b := by
      rw [hcons, ← UInt8.toNat_inj, UInt8.toNat_ofNat']
      omega
    have htail : leNat (b :: bytes) / 256 = leNat bytes := by
      rw [hcons]
      omega
    rw [List.length_cons, leBytes, hhead, htail, ih]

/-! ### Layouts -/

universe u v

variable {α : Type u} {β : Type v}

@[simp] theorem decode_encode (L : Layout α) (a : α) : L.decode (L.encode a) = some a :=
  L.decode_eq_some.mpr rfl

/-- The layout of a type whose values are numbers of `n` bytes, be it some of them or all. -/
def ofNat (n : ℕ) (toNat : α → ℕ) (ofNat : ℕ → Option α) (hlt : ∀ a, toNat a < 256 ^ n)
    (hof : ∀ x < 256 ^ n, ∀ a, ofNat x = some a ↔ toNat a = x) : Layout α where
  size := n
  encode a := leBytes n (toNat a)
  decode bytes := if bytes.length = n then ofNat (leNat bytes) else none
  length_encode a := length_leBytes n (toNat a)
  decode_eq_some := by
    intro bytes a
    constructor
    · intro h
      split_ifs at h with hlen
      subst hlen
      rw [(hof _ (leNat_lt bytes) a).mp h, leBytes_leNat]
    · rintro rfl
      rw [if_pos (length_leBytes n _), leNat_leBytes_of_lt (hlt a)]
      exact (hof _ (hlt a) a).mpr rfl

/-- The layout of a type whose values are kept as those of another. -/
def comap (L : Layout α) (e : β ≃ α) : Layout β where
  size := L.size
  encode b := L.encode (e b)
  decode bytes := (L.decode bytes).map e.symm
  length_encode b := L.length_encode (e b)
  decode_eq_some := by
    intro bytes b
    rw [Option.map_eq_some_iff, ← L.decode_eq_some]
    constructor
    · rintro ⟨a, ha, rfl⟩
      rwa [e.apply_symm_apply]
    · exact fun hb => ⟨e b, hb, e.symm_apply_apply b⟩

/-- A truth value is one byte, which is 1 or 0. -/
def bool : Layout Bool :=
  ofNat 1 Bool.toNat (fun x => if x = 0 then some false else if x = 1 then some true else none)
    (fun a => by cases a <;> decide) fun x _ a => by
      cases a <;> split_ifs <;> simp [Bool.toNat] <;> omega

/-- Four bytes without a sign. -/
def uint32 : Layout UInt32 :=
  ofNat 4 UInt32.toNat (fun x => some (UInt32.ofNat x)) UInt32.toNat_lt fun x hx a => by
    rw [Option.some_inj, ← UInt32.toNat_inj, UInt32.toNat_ofNat_of_lt' hx, eq_comm]

/-- Eight bytes without a sign. -/
def uint64 : Layout UInt64 :=
  ofNat 8 UInt64.toNat (fun x => some (UInt64.ofNat x)) UInt64.toNat_lt fun x hx a => by
    rw [Option.some_inj, ← UInt64.toNat_inj, UInt64.toNat_ofNat_of_lt' hx, eq_comm]

/-- Four bytes with a sign, in two's complement. -/
def int32 : Layout Int32 :=
  uint32.comap ⟨Int32.toUInt32, UInt32.toInt32, Int32.toInt32_toUInt32, UInt32.toUInt32_toInt32⟩

/-- Eight bytes with a sign, in two's complement. -/
def int64 : Layout Int64 :=
  uint64.comap ⟨Int64.toUInt64, UInt64.toInt64, Int64.toInt64_toUInt64, UInt64.toUInt64_toInt64⟩

end Layout

import MToolkit.Library.DottedQuad
import MToolkit.Library.Strings

/-!
# The class Net

The functions of the class `Net` (`utilities/net.cpp`) that read ranges of ports and of addresses,
and that write an address. A `std::string` is the list of its characters. What `inet_pton` and
`inet_network` do is a parameter (`Net.Inet`). The host is little-endian.
-/

namespace MToolkit

open Decimal Octets DottedQuad Strings

namespace Net

/-! ### Ports -/

/-- `AsRange`, with what is returned, the head and the tail. -/
def AsRange (value : List Char) : Bool × UInt16 × UInt16 :=
  match find value '-' 0 with
  | none =>
    let head := (strtoul (c_str value)).toUInt16
    let tail := head
    (decide (head ≤ tail), head, tail)
  | some pos =>
    let head := (strtoul (c_str (value.take pos))).toUInt16
    let tail := (strtoul (c_str (value.drop (pos + 1)))).toUInt16
    (decide (head ≤ tail), head, tail)

/-! ### Addresses -/

/-- What the C library reads in a text, where that is one it accepts. -/
structure Inet where
  /-- The word in network order that `inet_pton(AF_INET, ..)` writes. -/
  inet_pton : List Char → Option UInt32
  /-- The word in host order that `inet_network` returns. -/
  inet_network : List Char → Option UInt32

/-- `inet_network` returns **the host-order word of a dotted quad**. -/
def Inet.HostOrder (inet : Inet) : Prop :=
  ∀ text v, Quad text v → inet.inet_network text = some v

/-- `inet_pton` writes **the big-endian word of a dotted quad**. -/
def Inet.NetOrder (inet : Inet) : Prop :=
  ∀ text v, Quad text v → inet.inet_pton text = some (byteSwap v)

/-- A C library that accepts dotted quads only. -/
def quadInet : Inet where
  inet_pton text := (read text).map byteSwap
  inet_network := read

theorem quadInet_hostOrder : quadInet.HostOrder := fun _ _ h => read_iff.mpr h

theorem quadInet_netOrder : quadInet.NetOrder := by
  intro text v h
  simp only [quadInet, read_iff.mpr h, Option.map_some]

/-- `INADDR_NONE`, which `inet_network` returns for any other text. -/
def inaddrNone : UInt32 := 0xFFFFFFFF

/-- `AsNetByte`, whose `in_addr` stays 0 if nothing is written to it. -/
def AsNetByte (inet : Inet) (value : List Char) : UInt32 := (inet.inet_pton value).getD 0

/-- `AsHostByte` -/
def AsHostByte (inet : Inet) (value : List Char) : UInt32 :=
  (inet.inet_network value).getD inaddrNone

/-- `AsString` -/
def AsString (value : UInt32) : List Char :=
  Nat.toDigits 10 ((value >>> 24) &&& 0xFF).toNat ++ ['.'] ++
    Nat.toDigits 10 ((value >>> 16) &&& 0xFF).toNat ++ ['.'] ++
      Nat.toDigits 10 ((value >>> 8) &&& 0xFF).toNat ++ ['.'] ++
        Nat.toDigits 10 ((value >>> 0) &&& 0xFF).toNat

/-- The overloads for a range, with what is returned, the head and the tail: `as` converts one
address, and `order` puts a word into its byte order. -/
def AsByteRange (as : List Char → UInt32) (order : UInt32 → UInt32) (value : List Char)
    (head tail : UInt32) : Bool × UInt32 × UInt32 :=
  match find value '-' 0 with
  | none =>
    match find value '/' 0 with
    | none =>
      let head := as (c_str value)
      let tail := head
      (decide (head ≤ tail), head, tail)
    | some pos =>
      match find value '.' (pos + 1) with
      | none =>
        let mask := strtol (c_str (value.drop (pos + 1)))
        if 32 < mask ∨ mask < 0 then (false, head, tail)
        else
          let head := as (c_str (value.take pos))
          let tail := head |||
            ~~~(if mask = 0 then 0 else order (0xFFFFFFFF <<< (32 - mask).toNat.toUInt32))
          (decide (head ≤ tail), head, tail)
      | some _ =>
        let head := as (c_str (value.take pos))
        let tail := as (c_str (value.drop (pos + 1)))
        (decide (head ≤ tail), head, tail)
  | some pos =>
    let head := as (c_str (value.take pos))
    let tail := as (c_str (value.drop (pos + 1)))
    (decide (head ≤ tail), head, tail)

/-- `AsNetByte` of a range, where `htonl` swaps the octets. -/
def AsNetByteRange (inet : Inet) : List Char → UInt32 → UInt32 → Bool × UInt32 × UInt32 :=
  AsByteRange (AsNetByte inet) byteSwap

/-- `AsHostByte` of a range. -/
def AsHostByteRange (inet : Inet) : List Char → UInt32 → UInt32 → Bool × UInt32 × UInt32 :=
  AsByteRange (AsHostByte inet) id

/-! ### What is read, form by form -/

variable {value front rest : List Char}

/-- **A text is of one of four forms**: it has neither separator, a dash, a slash with no dot
behind it, or a slash with one. -/
inductive Form : List Char → Prop
  | single {value : List Char} (hdash : '-' ∉ value) (hslash : '/' ∉ value) : Form value
  | dash {front rest : List Char} (hdash : '-' ∉ front) : Form (front ++ '-' :: rest)
  | mask {front rest : List Char} (hdash : '-' ∉ front ++ '/' :: rest) (hslash : '/' ∉ front)
      (hdot : '.' ∉ rest) : Form (front ++ '/' :: rest)
  | slash {front rest : List Char} (hdash : '-' ∉ front ++ '/' :: rest) (hslash : '/' ∉ front)
      (hdot : '.' ∈ rest) : Form (front ++ '/' :: rest)

theorem form (value : List Char) : Form value := by
  by_cases hdash : '-' ∈ value
  · obtain ⟨front, rest, rfl, hfront⟩ := List.eq_append_cons_of_mem hdash
    exact .dash hfront
  by_cases hslash : '/' ∈ value
  · obtain ⟨front, rest, rfl, hfront⟩ := List.eq_append_cons_of_mem hslash
    by_cases hdot : '.' ∈ rest
    · exact .slash hdash hfront hdot
    · exact .mask hdash hfront hdot
  · exact .single hdash hslash

section Forms

variable {as : List Char → UInt32} {order : UInt32 → UInt32} {head tail : UInt32}

/-- One address is its own range. -/
theorem AsByteRange_single (hdash : '-' ∉ value) (hslash : '/' ∉ value) :
    AsByteRange as order value head tail = (true, as (c_str value), as (c_str value)) := by
  rw [AsByteRange, find_eq_none hdash]
  dsimp only
  rw [find_eq_none hslash]
  dsimp only
  rw [decide_eq_true UInt32.le_rfl]

/-- Two addresses are compared, behind a dash, -/
theorem AsByteRange_dash (hdash : '-' ∉ front) :
    AsByteRange as order (front ++ '-' :: rest) head tail =
      (decide (as (c_str front) ≤ as (c_str rest)), as (c_str front), as (c_str rest)) := by
  rw [AsByteRange, find_append hdash]
  dsimp only
  rw [List.take_left, drop_length_succ]

/-- or a slash. -/
theorem AsByteRange_slash (hdash : '-' ∉ front ++ '/' :: rest) (hslash : '/' ∉ front)
    (hdot : '.' ∈ rest) :
    AsByteRange as order (front ++ '/' :: rest) head tail =
      (decide (as (c_str front) ≤ as (c_str rest)), as (c_str front), as (c_str rest)) := by
  obtain ⟨i, hi⟩ : ∃ i, find (front ++ '/' :: rest) '.' (front.length + 1) = some i := by
    rw [← Option.ne_none_iff_exists', ne_eq, find_eq_none_iff, drop_length_succ]
    exact not_not.mpr hdot
  rw [AsByteRange, find_eq_none hdash]
  dsimp only
  rw [find_append hslash]
  dsimp only
  rw [hi]
  dsimp only
  rw [List.take_left, drop_length_succ]

/-- The bits behind the mask are set at the end of the range. -/
theorem AsByteRange_mask (hdash : '-' ∉ front ++ '/' :: rest) (hslash : '/' ∉ front)
    (hdot : '.' ∉ rest) :
    AsByteRange as order (front ++ '/' :: rest) head tail =
      let mask := strtol (c_str rest)
      if 32 < mask ∨ mask < 0 then (false, head, tail)
      else
        (true, as (c_str front), as (c_str front) |||
          ~~~(if mask = 0 then 0 else order (0xFFFFFFFF <<< (32 - mask).toNat.toUInt32))) := by
  have hnone : find (front ++ '/' :: rest) '.' (front.length + 1) = none := by
    rw [find_eq_none_iff, drop_length_succ]
    exact hdot
  rw [AsByteRange, find_eq_none hdash]
  dsimp only
  rw [find_append hslash]
  dsimp only
  rw [hnone]
  dsimp only
  rw [List.take_left, drop_length_succ, decide_eq_true UInt32.left_le_or]

end Forms

end Net

end MToolkit

import MToolkit.Library.Pieces

/-!
# The class String

The functions of the class `String` (`utilities/string.cpp`) that cut text and that write bytes
as hexadecimal digits. A `std::string` is the list of its bytes, and an iterator into one is what
is left from there on. A read behind the end of a block of memory has no result.
-/

namespace MToolkit

open Pieces

namespace String

/-! ### Trimming -/

/-- `std::string::find_first_not_of` -/
def find_first_not_of (value group : List UInt8) : Option ℕ :=
  value.findIdx? fun c => !group.contains c

/-- `std::string::find_last_not_of` -/
def find_last_not_of (value group : List UInt8) : Option ℕ :=
  (value.reverse.findIdx? fun c => !group.contains c).map fun i => value.length - 1 - i

/-- `std::string::substr` -/
def substr (value : List UInt8) (pos n : ℕ) : List UInt8 := (value.drop pos).take n

/-- `Trim`, with the letters of a group. -/
def Trim (value group : List UInt8) : List UInt8 :=
  match find_first_not_of value group, find_last_not_of value group with
  | some start, some last => substr value start (1 + last - start)
  | _, _ => []

/-! ### Chunks of one length -/

/-- A `std::string`, with its greatest length. -/
structure Text where
  chars : List UInt8
  length_lt : chars.length < 2 ^ 63

/-- The loop of `SplitString`. -/
def SplitString.loop (str : Text) (chunkSize : UInt64) :
    ℕ → UInt64 → List (List UInt8) → Option (List (List UInt8))
  | 0, _, _ => none
  | fuel + 1, i, result =>
    if i < str.chars.length.toUInt64 then
      loop str chunkSize fuel (i + chunkSize)
        (result ++ [substr str.chars i.toNat chunkSize.toNat])
    else some result

/-- `SplitString` -/
def SplitString (str : Text) (chunkSize : UInt64) (fuel : ℕ) : Option (List (List UInt8)) :=
  SplitString.loop str chunkSize fuel 0 []

/-! ### Pieces between keys -/

def cr : UInt8 := '\r'.toUInt8

def lf : UInt8 := '\n'.toUInt8

def nul : UInt8 := '\x00'.toUInt8

/-- The loop of `Split`, with what is left of the value from `beg` on. -/
def Split.loop (key : List UInt8) (keepEmpty : Bool) :
    ℕ → List UInt8 → List (List UInt8) → Option (List (List UInt8))
  | 0, _, _ => none
  | fuel + 1, beg, container =>
    -- `std::search`, counted from `beg` on
    let last := search key beg
    if last ≠ 0 then
      let str := Trim (beg.take last) [cr, lf]
      let container := if keepEmpty || !str.isEmpty then container ++ [str] else container
      if last = beg.length then some container
      else loop key keepEmpty fuel (beg.drop (last + key.length)) container
    else if beg = [] then some container
    else loop key keepEmpty fuel (beg.drop (last + key.length)) container

/-- `Split`, with the container as it is afterwards and what is returned. -/
def Split (value key : List UInt8) (container : List (List UInt8)) (keepEmpty : Bool)
    (fuel : ℕ) : Option (List (List UInt8) × ℕ) :=
  if key = [] then
    let container := container ++ [value]
    some (container, container.length)
  else
    (Split.loop key keepEmpty fuel value container).map fun container =>
      (container, container.length)

/-- The overload of `Split` that returns the container. -/
def SplitList (value key : List UInt8) (keepEmpty : Bool) (fuel : ℕ) :
    Option (List (List UInt8)) :=
  (Split value key [] keepEmpty fuel).map Prod.fst

/-! ### Lines -/

/-- The inner loop of `SplitLines`. -/
def SplitLines.skip (value : List UInt8) : ℕ → ℕ → Option ℕ
  | 0, _ => none
  | fuel + 1, i =>
    match value[i]? with
    | none => some i
    | some c => if c ≠ cr ∧ c ≠ lf ∧ c ≠ nul then skip value fuel (i + 1) else some i

/-- The outer loop of `SplitLines`. -/
def SplitLines.loop (value : List UInt8) (keepEnter : Bool) :
    ℕ → ℕ → ℕ → List (List UInt8) → Option (List (List UInt8))
  | 0, _, _, _ => none
  | fuel + 1, i, j, container =>
    if i < value.length then
      match skip value fuel i with
      | none => none
      | some i =>
        let next :=
          if i < value.length then
            i + if value[i]? = some cr ∧ i + 1 < value.length ∧ value[i + 1]? = some lf then 2
              else 1
          else i
        let eol := if i < value.length ∧ keepEnter then next else i
        loop value keepEnter fuel next next (container ++ [substr value j (eol - j)])
    else some container

/-- `SplitLines`, with the container as it is afterwards and what is returned. -/
def SplitLines (value : List UInt8) (container : List (List UInt8)) (keepEnter : Bool)
    (fuel : ℕ) : Option (List (List UInt8) × ℕ) :=
  (SplitLines.loop value keepEnter fuel 0 0 container).map fun container =>
    (container, container.length)

/-- The overload of `SplitLines` that returns the container. -/
def SplitLinesList (value : List UInt8) (keepEnter : Bool) (fuel : ℕ) :
    Option (List (List UInt8)) :=
  (SplitLines value [] keepEnter fuel).map Prod.fst

/-! ### Hexadecimal digits -/

def asc2nibble (c : UInt8) : UInt8 :=
  if c ≥ '0'.toUInt8 ∧ c ≤ '9'.toUInt8 then c - '0'.toUInt8
  else if c ≥ 'A'.toUInt8 ∧ c ≤ 'F'.toUInt8 then c - 'A'.toUInt8 + 10
  else if c ≥ 'a'.toUInt8 ∧ c ≤ 'f'.toUInt8 then c - 'a'.toUInt8 + 10
  else 16

/-- The loop of `AsHexString2Byte`. -/
def AsHexString2Byte.loop (value : List UInt8) (len : UInt32) :
    ℕ → UInt32 → List UInt8 → Option (List UInt8)
  | 0, _, _ => none
  | fuel + 1, index, result =>
    if index < len then
      match value[index.toNat]? with
      | none => none
      | some c =>
        if ' '.toUInt8 = c then loop value len fuel (index + 1) result
        else
          let data := (asc2nibble c).toUInt32 <<< 4
          let index := index + 1
          match value[index.toNat]? with
          | none => none
          | some c =>
            let data := data ||| (asc2nibble c).toUInt32
            loop value len fuel (index + 1) (result ++ [data.toUInt8])
    else some result

/-- `AsHexString2Byte` -/
def AsHexString2Byte (value : List UInt8) (len : UInt32) (fuel : ℕ) : Option (List UInt8) :=
  AsHexString2Byte.loop value len fuel 0 []

/-- The macro `HEXSTR`. -/
def HEXSTR (i : UInt8) : Option UInt8 :=
  (['0', '1', '2', '3', '4', '5', '6', '7', '8', '9', 'A', 'B', 'C', 'D', 'E', 'F'].map
    Char.toUInt8)[i.toNat]?

/-- The loop of `AsByte2HexString`, whose index is an `int`: it must not get out of the range of
that type. -/
def AsByte2HexString.loop (value : List UInt8) (len : UInt32) :
    ℕ → ℕ → List UInt8 → Option (List UInt8)
  | 0, _, _ => none
  | fuel + 1, index, result =>
    if index < len.toNat then
      match value[index]? with
      | none => none
      | some c =>
        match HEXSTR (c >>> 4), HEXSTR (c &&& 0xF) with
        | some hi, some lo =>
          if index + 1 < 2 ^ 31 then
            loop value len fuel (index + 1) (result ++ [hi, lo, ' '.toUInt8])
          else none
        | _, _ => none
    else some result

/-- `AsByte2HexString` -/
def AsByte2HexString (value : List UInt8) (len : UInt32) (fuel : ℕ) : Option (List UInt8) :=
  AsByte2HexString.loop value len fuel 0 []

/-! ### Printing -/

/-- A `char` as an `int`, where `char` is a signed type or not. -/
def promote (signed : Bool) (c : UInt8) : Int32 :=
  if signed then c.toInt8.toInt32 else c.toUInt32.toInt32

/-- The macro `HEXSTR` of an `int`, which must not be before the table. -/
def HEXSTRInt (i : Int32) : Option UInt8 :=
  if i < 0 then none
  else
    (['0', '1', '2', '3', '4', '5', '6', '7', '8', '9', 'A', 'B', 'C', 'D', 'E', 'F'].map
      Char.toUInt8)[i.toInt.toNat]?

/-- What both loops of `PrintHex` do with a `char`, with what has been printed. -/
def PrintHex.print (signed : Bool) (c : UInt8) (cout : List UInt8) : Option (List UInt8) :=
  match HEXSTRInt (promote signed c >>> 4), HEXSTRInt (promote signed c &&& 0xF) with
  | some hi, some lo => some (cout ++ [hi, lo, ' '.toUInt8])
  | _, _ => none

/-- `PrintHex` of a `std::string`. -/
def PrintHex (signed : Bool) (data : List UInt8) (cout : List UInt8) : Option (List UInt8) :=
  data.foldlM (fun cout c => PrintHex.print signed c cout) cout

/-- The loop of `PrintHex` over a block of memory, whose index is an `int`. -/
def PrintHexBytes.loop (signed : Bool) (data : List UInt8) (len : UInt32) :
    ℕ → ℕ → List UInt8 → Option (List UInt8)
  | 0, _, _ => none
  | fuel + 1, i, cout =>
    if i < len.toNat then
      match data[i]? with
      | none => none
      | some c =>
        match PrintHex.print signed c cout with
        | none => none
        | some cout => if i + 1 < 2 ^ 31 then loop signed data len fuel (i + 1) cout else none
    else some cout

/-- `PrintHex` of a block of memory. -/
def PrintHexBytes (signed : Bool) (data : List UInt8) (len : UInt32) (cout : List UInt8)
    (fuel : ℕ) : Option (List UInt8) :=
  PrintHexBytes.loop signed data len fuel 0 cout

end String

end MToolkit

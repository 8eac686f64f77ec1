import MToolkit.Library.Layout
import MToolkit.Library.Memory

/-!
# Serializing

The classes `Serialize` and `Deserialize` (`utilities/serialize.h`): values are copied one
behind the other into a block of memory whose size is given once, and read back from it. A
number takes the bytes it has in memory; a string is its length, in four bytes, and its bytes.
Neither class checks that it stays inside the block; a `memcpy` or a read that leaves it has
no result, and neither has a `bool` that is read from a byte other than 0 and 1, which is a value
of no `bool`. Both count in 32 bits.
-/

namespace MToolkit

open Memory

/-- A string of C: the bytes before the first that is zero. -/
structure CString where
  bytes : List UInt8
  nul_free : 0 ∉ bytes

/-- A block of memory with the bytes and a zero behind them: what a `const char*` points to,
and what `std::string::c_str` returns. -/
def terminated (bytes : List UInt8) : List UInt8 := bytes ++ [0]

/-- `strlen` -/
def strlen (item : List UInt8) : ℕ := (item.takeWhile (· != 0)).length

/-- The types of the values, each with an overload of `operator<<`. -/
inductive Kind where
  | bool
  | int
  | uint32
  | uint64
  | int64
  | double
  | string
  /-- `const char*` -/
  | chars
  deriving DecidableEq, Repr

/-- A value with its type. -/
inductive Item where
  | bool (item : Bool) : Item
  | int (item : Int32) : Item
  | uint32 (item : UInt32) : Item
  | uint64 (item : UInt64) : Item
  | int64 (item : Int64) : Item
  /-- A `double`, as the eight bytes it has in memory. -/
  | double (bits : UInt64) : Item
  | string (item : List UInt8) : Item
  | chars (item : CString) : Item

/-- The type of a value. -/
def Item.kind : Item → Kind
  | .bool _ => .bool
  | .int _ => .int
  | .uint32 _ => .uint32
  | .uint64 _ => .uint64
  | .int64 _ => .int64
  | .double _ => .double
  | .string _ => .string
  | .chars _ => .chars

/-! ### Writing -/

/-- The fields of a `Serialize`. -/
structure Serialize where
  /-- `size_` -/
  size : UInt32
  /-- `buffer_` -/
  buffer : List UInt8

namespace Serialize

/-- The constructor; `new` leaves the block as it finds it. -/
def init (reserve : UInt32) (found : ℕ → UInt8) : Serialize where
  size := 0
  buffer := (List.range reserve.toNat).map found

/-- `Serialize::Append` of a type of fixed size. -/
def append {α : Type} (L : Layout α) (s : Serialize) (item : α) : Option Serialize := do
  let buffer ← store s.buffer s.size.toNat (L.encode item)
  return { s with size := s.size + UInt32.ofNat L.size, buffer := buffer }

/-- `Serialize::Append` of a pointer and a size. -/
def appendBytes (s : Serialize) (item : List UInt8) (size : UInt32) : Option Serialize := do
  let s ← s.append .uint32 size
  let bytes ← load item 0 size.toNat
  let buffer ← store s.buffer s.size.toNat bytes
  return { s with size := s.size + size, buffer := buffer }

/-- The overloads of `Serialize::operator<<`. -/
def write (s : Serialize) : Item → Option Serialize
  | .bool item => s.append .bool item
  | .int item => s.append .int32 item
  | .uint32 item => s.append .uint32 item
  | .uint64 item => s.append .uint64 item
  | .int64 item => s.append .int64 item
  | .double bits => s.append .uint64 bits
  | .chars item =>
    s.appendBytes (terminated item.bytes) (UInt32.ofNat (strlen (terminated item.bytes)))
  | .string item => s.appendBytes (terminated item) (UInt32.ofNat item.length)

/-- `Serialize::SerializePack` -/
def serializePack (s : Serialize) (args : List Item) : Option Serialize := args.foldlM write s

/-- `Serialize::Str` -/
def str (s : Serialize) : List UInt8 := s.buffer

end Serialize

/-! ### Reading -/

/-- The fields of a `Deserialize`. -/
structure Deserialize where
  /-- `offset_` -/
  offset : UInt32
  /-- `data_`: the block that it points to. -/
  data : List UInt8

namespace Deserialize

/-- The constructor. -/
def init (data : List UInt8) : Deserialize where
  offset := 0
  data := data

/-- `Deserialize::Extract` of a type of fixed size. -/
def extract {α : Type} (L : Layout α) (d : Deserialize) : Option (α × Deserialize) := do
  let bytes ← load d.data d.offset.toNat L.size
  let item ← L.decode bytes
  return (item, { d with offset := d.offset + UInt32.ofNat L.size })

/-- `Deserialize::Extract` of a string. -/
def extractString (d : Deserialize) : Option (List UInt8 × Deserialize) := do
  let (len, d) ← d.extract .uint32
  let item ← load d.data d.offset.toNat len.toNat
  return (item, { d with offset := d.offset + len })

/-- The overloads of `Deserialize::operator>>`. There is none for `const char*`: what was
written as one is read into a string. -/
def read (d : Deserialize) : Kind → Option (Item × Deserialize)
  | .bool => (d.extract .bool).map (Prod.map .bool id)
  | .int => (d.extract .int32).map (Prod.map .int id)
  | .uint32 => (d.extract .uint32).map (Prod.map .uint32 id)
  | .uint64 => (d.extract .uint64).map (Prod.map .uint64 id)
  | .int64 => (d.extract .int64).map (Prod.map .int64 id)
  | .double => (d.extract .uint64).map (Prod.map .double id)
  | .string | .chars => d.extractString.map (Prod.map .string id)

/-- `Deserialize::DeserializePack`: the values extracted, in order. -/
def deserializePack (d : Deserialize) : List Kind → Option (List Item × Deserialize)
  | [] => some ([], d)
  | kind :: kinds => do
    let (item, d) ← d.read kind
    let (items, d) ← d.deserializePack kinds
    return (item :: items, d)

end Deserialize

/-! ### The format -/

namespace Item

/-- The bytes of a string: its length and what it holds. -/
def encodeString (item : List UInt8) : List UInt8 :=
  Layout.uint32.encode (UInt32.ofNat item.length) ++ item

/-- The bytes that stand for a value. -/
def encode : Item → List UInt8
  | .bool item => Layout.bool.encode item
  | .int item => Layout.int32.encode item
  | .uint32 item => Layout.uint32.encode item
  | .uint64 item => Layout.uint64.encode item
  | .int64 item => Layout.int64.encode item
  | .double bits => Layout.uint64.encode bits
  | .string item => encodeString item
  | .chars item => encodeString item.bytes

/-- The number of these bytes. -/
def width : Item → ℕ
  | .bool _ => 1
  | .int _ | .uint32 _ => 4
  | .uint64 _ | .int64 _ | .double _ => 8
  | .string item => 4 + item.length
  | .chars item => 4 + item.bytes.length

/-- The value that is read back. -/
def readBack : Item → Item
  | .chars item => .string item.bytes
  | item => item

end Item

end MToolkit

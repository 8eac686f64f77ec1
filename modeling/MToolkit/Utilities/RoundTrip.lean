import MToolkit.Utilities.Serialize

/-!
# What is written is read back

The bytes of a sequence of values are the bytes of each, one behind the other
(`Serialize.serializePack_eq`), and whoever has these ahead of him reads the values
(`Deserialize.deserializePack_eq`). As neither side looks further, this holds of every part of
the sequence that comes first, and with it `Serialize.deserialize_serialize`.
-/

namespace MToolkit

open Memory

/-! ### The format -/

namespace Item

theorem length_encodeString (item : List UInt8) :
    (encodeString item).length = 4 + item.length := by
  rw [encodeString, List.length_append, Layout.length_encode]
  rfl

@[simp] theorem length_encode (item : Item) : item.encode.length = item.width := by
  cases item with
  | string item => exact length_encodeString item
  | chars item => exact length_encodeString item.bytes
  | _ => exact Layout.length_encode _ _

/-- The bytes of a sequence of values. -/
theorem length_flatMap_encode (items : List Item) :
    (items.flatMap encode).length = (items.map width).sum := by
  rw [List.length_flatMap]
  simp only [length_encode]

/-- A value is known by its type and what is read back for it. -/
theorem eq_of_readBack {a b : Item} (hkind : a.kind = b.kind)
    (hread : a.readBack = b.readBack) : a = b := by
  cases a <;> cases b <;> cases hkind
  case chars.chars x y =>
    obtain ⟨x, hx⟩ := x
    obtain ⟨y, hy⟩ := y
    obtain rfl : x = y := by simpa [readBack] using hread
    rfl
  all_goals exact hread

/-- The same of a sequence. -/
theorem eq_of_map_readBack {a b : List Item} (hkind : a.map kind = b.map kind)
    (hread : a.map readBack = b.map readBack) : a = b := by
  have hinj : Function.Injective fun item : Item => (item.kind, item.readBack) := by
    intro a b hab
    exact eq_of_readBack (congrArg Prod.fst hab) (congrArg Prod.snd hab)
  refine List.map_injective_iff.mpr hinj ?_
  rw [← List.zip_map', ← List.zip_map', hkind, hread]

end Item

/-- Before the zero at the end there is no other. -/
theorem strlen_terminated (item : CString) :
    strlen (terminated item.bytes) = item.bytes.length := by
  have hall : ∀ b ∈ item.bytes, (b != 0) = true := by
    intro b hb
    exact bne_iff_ne.mpr fun h => item.nul_free (h ▸ hb)
  rw [strlen, terminated, List.takeWhile_append_of_pos hall]
  simp

/-! ### Writing -/

namespace Serialize

/-- The block with bytes written where the last have ended. -/
def wrote (s : Serialize) (bytes : List UInt8) : Serialize where
  size := s.size + UInt32.ofNat bytes.length
  buffer := overwrite s.buffer s.size.toNat bytes

/-- There is room for `n` bytes in a block whose positions are numbers of 32 bits. -/
structure Room (s : Serialize) (n : ℕ) : Prop where
  le : s.size.toNat + n ≤ s.buffer.length
  lt : s.buffer.length < 2 ^ 32

variable {s : Serialize} {bytes : List UInt8} {n : ℕ}

theorem Room.mono {m : ℕ} (h : s.Room n) (hle : m ≤ n) : s.Room m :=
  ⟨by have := h.le; omega, h.lt⟩

theorem Room.toNat_size (h : s.Room bytes.length) :
    (s.wrote bytes).size.toNat = s.size.toNat + bytes.length := by
  have hle := h.le
  have hlt := h.lt
  rw [wrote, UInt32.toNat_add, UInt32.toNat_ofNat', Nat.mod_eq_of_lt (a := bytes.length) (by omega),
    Nat.mod_eq_of_lt (by omega)]

theorem Room.wrote (h : s.Room (bytes.length + n)) : (s.wrote bytes).Room n := by
  have hle := h.le
  have hbuf : (s.wrote bytes).buffer.length = s.buffer.length := length_overwrite (by omega)
  refine ⟨?_, by rw [hbuf]; exact h.lt⟩
  rw [(h.mono (Nat.le_add_right _ _)).toNat_size, hbuf]
  omega

@[simp] theorem wrote_nil : s.wrote [] = s := by
  rw [wrote, overwrite_nil]
  simp

/-- Writing twice is writing once. -/
theorem wrote_wrote (h : s.Room bytes.length) (bytes' : List UInt8) :
    (s.wrote bytes).wrote bytes' = s.wrote (bytes ++ bytes') := by
  have hle := h.le
  have hsize := h.toNat_size
  rw [wrote, hsize]
  simp only [wrote]
  rw [overwrite_overwrite (by omega), List.length_append, UInt32.ofNat_add, UInt32.add_assoc]

/-- **Appending a value of fixed size.** -/
theorem append_eq {α : Type} (L : Layout α) (item : α) (h : s.Room L.size) :
    s.append L item = some (s.wrote (L.encode item)) := by
  rw [append, store_of_le (by rw [L.length_encode]; exact h.le), wrote, L.length_encode]
  rfl

/-- **Appending a string.** -/
theorem appendBytes_eq (item : List UInt8) (h : s.Room (4 + item.length)) :
    s.appendBytes (terminated item) (UInt32.ofNat item.length) =
      some (s.wrote (Item.encodeString item)) := by
  have hle := h.le
  have hlt := h.lt
  have hlen : (UInt32.ofNat item.length).toNat = item.length := by
    rw [UInt32.toNat_ofNat', Nat.mod_eq_of_lt (by omega)]
  have hhead : (Layout.uint32.encode (UInt32.ofNat item.length)).length = 4 :=
    Layout.length_encode _ _
  have hload : load (terminated item) 0 item.length = some item :=
    load_of_drop (Nat.zero_le _) rfl
  have hroom : (s.wrote (Layout.uint32.encode (UInt32.ofNat item.length))).Room item.length := by
    refine Room.wrote ?_
    rwa [hhead]
  have happend : s.append .uint32 (UInt32.ofNat item.length) =
      some (s.wrote (Layout.uint32.encode (UInt32.ofNat item.length))) :=
    append_eq Layout.uint32 _ (h.mono (Nat.le_add_right _ _))
  rw [appendBytes, happend, Option.bind_eq_bind, Option.bind_some, hlen, hload,
    Option.bind_eq_bind, Option.bind_some, store_of_le hroom.le, Item.encodeString,
    ← wrote_wrote (h.mono (by omega))]
  rfl

/-- **One value.** -/
theorem write_eq (item : Item) (h : s.Room item.width) :
    s.write item = some (s.wrote item.encode) := by
  cases item with
  | string item => exact appendBytes_eq item h
  | chars item =>
    rw [write, strlen_terminated]
    exact appendBytes_eq item.bytes h
  | _ => exact append_eq _ _ h

/-- **A sequence of values** is written one behind the other. -/
theorem serializePack_eq (items : List Item) (h : s.Room (items.map Item.width).sum) :
    s.serializePack items = some (s.wrote (items.flatMap Item.encode)) := by
  induction items generalizing s with
  | nil => simp [serializePack]
  | cons item items ih =>
    rw [List.map_cons, List.sum_cons] at h
    have hroom : (s.wrote item.encode).Room (items.map Item.width).sum := by
      refine Room.wrote ?_
      rwa [Item.length_encode]
    rw [serializePack, List.foldlM_cons, write_eq item (h.mono (Nat.le_add_right _ _))]
    change (s.wrote item.encode).serializePack items = _
    rw [ih hroom, wrote_wrote (h.mono (by rw [Item.length_encode]; omega)), List.flatMap_cons]

end Serialize

/-! ### Reading -/

namespace Deserialize

/-- The same block, further on. -/
def advance (d : Deserialize) (n : ℕ) : Deserialize :=
  { d with offset := d.offset + UInt32.ofNat n }

/-- The bytes from the offset on, in a block whose positions are numbers of 32 bits. -/
structure Ahead (d : Deserialize) (bytes : List UInt8) : Prop where
  le : d.offset.toNat ≤ d.data.length
  lt : d.data.length < 2 ^ 32
  drop : d.data.drop d.offset.toNat = bytes

variable {d : Deserialize} {bytes rest : List UInt8}

@[simp] theorem advance_zero : d.advance 0 = d := by
  simp [advance]

theorem advance_advance (m n : ℕ) : (d.advance m).advance n = d.advance (m + n) := by
  simp only [advance, UInt32.ofNat_add, UInt32.add_assoc]

theorem Ahead.length_le (h : d.Ahead bytes) :
    d.offset.toNat + bytes.length = d.data.length := by
  have hle := h.le
  rw [← h.drop, List.length_drop]
  omega

theorem Ahead.load (h : d.Ahead (bytes ++ rest)) :
    load d.data d.offset.toNat bytes.length = some bytes :=
  load_of_drop h.le h.drop

theorem Ahead.advance (h : d.Ahead (bytes ++ rest)) : (d.advance bytes.length).Ahead rest := by
  have hlen := h.length_le
  have hlt := h.lt
  rw [List.length_append] at hlen
  have hoff : (d.advance bytes.length).offset.toNat = d.offset.toNat + bytes.length := by
    rw [Deserialize.advance, UInt32.toNat_add, UInt32.toNat_ofNat',
      Nat.mod_eq_of_lt (a := bytes.length) (by omega), Nat.mod_eq_of_lt (by omega)]
  refine ⟨?_, hlt, ?_⟩
  · rw [hoff]
    change _ ≤ d.data.length
    omega
  · rw [hoff, ← List.drop_drop]
    change (d.data.drop d.offset.toNat).drop _ = rest
    rw [h.drop, List.drop_left]

/-- **Extracting a value of fixed size.** -/
theorem extract_eq {α : Type} (L : Layout α) (item : α) (h : d.Ahead (L.encode item ++ rest)) :
    d.extract L = some (item, d.advance L.size) := by
  have hload := h.load
  rw [L.length_encode] at hload
  rw [extract, hload, Option.bind_eq_bind, Option.bind_some, L.decode_encode,
    Option.bind_eq_bind, Option.bind_some]
  rfl

/-- **Extracting a string.** -/
theorem extractString_eq (item : List UInt8) (h : d.Ahead (Item.encodeString item ++ rest)) :
    d.extractString = some (item, d.advance (4 + item.length)) := by
  have hlt := h.lt
  have hlen := h.length_le
  rw [List.length_append, Item.length_encodeString] at hlen
  rw [Item.encodeString, List.append_assoc] at h
  have hnext := h.advance
  rw [Layout.length_encode] at hnext
  have htoNat : (UInt32.ofNat item.length).toNat = item.length := by
    rw [UInt32.toNat_ofNat', Nat.mod_eq_of_lt (by omega)]
  rw [extractString, extract_eq Layout.uint32 _ h, Option.bind_eq_bind, Option.bind_some]
  dsimp only
  rw [htoNat, hnext.load, Option.bind_eq_bind, Option.bind_some]
  change some (item, (d.advance 4).advance item.length) = _
  rw [advance_advance]

/-- **One value.** -/
theorem read_eq (item : Item) (h : d.Ahead (item.encode ++ rest)) :
    d.read item.kind = some (item.readBack, d.advance item.width) := by
  cases item with
  | string item =>
    rw [Item.kind, read, extractString_eq item h]
    rfl
  | chars item =>
    rw [Item.kind, read, extractString_eq item.bytes h]
    rfl
  | _ =>
    rw [Item.kind, read, extract_eq _ _ h]
    rfl

/-- **A sequence of values** is read one behind the other. -/
theorem deserializePack_eq (items : List Item)
    (h : d.Ahead (items.flatMap Item.encode ++ rest)) :
    d.deserializePack (items.map Item.kind) =
      some (items.map Item.readBack, d.advance (items.map Item.width).sum) := by
  induction items generalizing d with
  | nil =>
    rw [List.map_nil, List.map_nil, deserializePack, List.map_nil, List.sum_nil, advance_zero]
  | cons item items ih =>
    rw [List.flatMap_cons, List.append_assoc] at h
    have hnext := h.advance
    rw [Item.length_encode] at hnext
    rw [List.map_cons, deserializePack, read_eq item h, Option.bind_eq_bind, Option.bind_some]
    dsimp only
    rw [ih hnext, Option.bind_eq_bind, Option.bind_some, advance_advance]
    rfl

theorem ahead_init {data : List UInt8} (h : data.length < 2 ^ 32) : (init data).Ahead data :=
  ⟨Nat.zero_le _, h, rfl⟩

end Deserialize

/-! ### The round trip -/

namespace Serialize

variable {reserve : UInt32} {found : ℕ → UInt8} {items : List Item} {s : Serialize}

theorem length_init : (init reserve found).buffer.length = reserve.toNat := by
  rw [init, List.length_map, List.length_range]

theorem room_init {n : ℕ} (h : n ≤ reserve.toNat) : (init reserve found).Room n := by
  refine ⟨?_, length_init.trans_lt reserve.toNat_lt⟩
  rw [length_init]
  exact (Nat.zero_add n).trans_le h

/-- What a `Serialize` holds that the values fit into. -/
theorem serializePack_init (hfit : (items.map Item.width).sum ≤ reserve.toNat)
    (h : (init reserve found).serializePack items = some s) :
    s.size.toNat = (items.map Item.width).sum ∧
      s.str = items.flatMap Item.encode ++
        (init reserve found).buffer.drop (items.map Item.width).sum := by
  have hroom : (init reserve found).Room (items.map Item.width).sum := room_init hfit
  rw [serializePack_eq items hroom] at h
  obtain rfl := Option.some.inj h
  rw [← Item.length_flatMap_encode] at hroom
  constructor
  · rw [hroom.toNat_size, Item.length_flatMap_encode]
    exact Nat.zero_add _
  · rw [str, wrote]
    exact (overwrite_zero _ _).trans (by rw [Item.length_flatMap_encode])

/-- The bytes of values of known types have one reading. -/
theorem eq_of_flatMap_encode {items' : List Item}
    (hfit : (items.map Item.width).sum < 2 ^ 32)
    (hkind : items.map Item.kind = items'.map Item.kind)
    (h : items.flatMap Item.encode = items'.flatMap Item.encode) : items = items' := by
  rw [← Item.length_flatMap_encode] at hfit
  have hahead := Deserialize.ahead_init hfit
  rw [← List.append_nil (items.flatMap Item.encode)] at hahead
  have hread := Deserialize.deserializePack_eq items hahead
  rw [h] at hahead hread
  rw [hkind, Deserialize.deserializePack_eq items' hahead] at hread
  exact Item.eq_of_map_readBack hkind (congrArg Prod.fst (Option.some.inj hread)).symm

/-- **The round trip**: values that fit are written, and those of every part that comes first
are read back by their types, up to where the writer was after it. Two sequences of the same
types that leave the same bytes are the same. -/
theorem deserialize_serialize (reserve : UInt32) (found : ℕ → UInt8) (items : List Item)
    (hfit : (items.map Item.width).sum ≤ reserve.toNat) :
    ∃ s, (init reserve found).serializePack items = some s ∧
      (∀ before after, items = before ++ after → ∃ w d,
        (init reserve found).serializePack before = some w ∧
        (Deserialize.init s.str).deserializePack (before.map Item.kind) =
          some (before.map Item.readBack, d) ∧
        d.offset = w.size) ∧
      ∀ (reserve' : UInt32) (found' : ℕ → UInt8) (items' : List Item) (s' : Serialize),
        (items'.map Item.width).sum ≤ reserve'.toNat →
        items.map Item.kind = items'.map Item.kind →
        (init reserve' found').serializePack items' = some s' →
        s.str.take s.size.toNat = s'.str.take s'.size.toNat → items = items' := by
  have hroom : (init reserve found).Room (items.map Item.width).sum := room_init hfit
  have hpack := serializePack_eq items hroom
  obtain ⟨hsize, hstr⟩ := serializePack_init hfit hpack
  refine ⟨_, hpack, ?_, ?_⟩
  -- the reader stops in the middle: behind it lies what comes after
  · rintro before after rfl
    have hbefore : (before.map Item.width).sum ≤ reserve.toNat := by
      rw [List.map_append, List.sum_append] at hfit
      omega
    have hlen : ((init reserve found).wrote ((before ++ after).flatMap Item.encode)).str.length =
        reserve.toNat := by
      refine (length_overwrite ?_).trans length_init
      rw [Item.length_flatMap_encode]
      exact hroom.le
    have hahead := Deserialize.ahead_init (hlen.trans_lt reserve.toNat_lt)
    rw [hstr, List.flatMap_append, List.append_assoc] at hahead
    have hread := Deserialize.deserializePack_eq before hahead
    rw [hstr, List.flatMap_append, List.append_assoc]
    refine ⟨_, _, serializePack_eq before (room_init hbefore), hread, ?_⟩
    rw [Deserialize.advance, wrote, Item.length_flatMap_encode]
    rfl
  · intro reserve' found' items' s' hfit' hkind hpack' hbytes
    obtain ⟨hsize', hstr'⟩ := serializePack_init hfit' hpack'
    rw [hsize, hstr, hsize', hstr', ← Item.length_flatMap_encode, ← Item.length_flatMap_encode,
      List.take_left, List.take_left] at hbytes
    exact eq_of_flatMap_encode (hfit.trans_lt reserve.toNat_lt) hkind hbytes

/-- A string with a zero in it, between a negative number and a string of C, in a block that
is just large enough. -/
theorem deserialize_serialize_exact :
    (([.int (-1), .string [0, 7], .chars ⟨[65], by decide⟩] : List Item).map Item.width).sum ≤
        (15 : UInt32).toNat ∧
      ∃ s d, (init 15 fun _ => 204).serializePack
          [.int (-1), .string [0, 7], .chars ⟨[65], by decide⟩] = some s ∧
        (Deserialize.init s.str).deserializePack [.int, .string, .chars] =
          some ([.int (-1), .string [0, 7], .string [65]], d) ∧ d.offset = s.size := by
  refine ⟨by decide, ?_⟩
  obtain ⟨s, hs, hread, -⟩ := deserialize_serialize 15 (fun _ => 204)
    [.int (-1), .string [0, 7], .chars ⟨[65], by decide⟩] (by decide)
  obtain ⟨w, d, hw, hd, hoff⟩ := hread _ [] (List.append_nil _).symm
  obtain rfl : s = w := Option.some.inj (hs.symm.trans hw)
  exact ⟨s, d, hs, hd, hoff⟩

end Serialize

end MToolkit

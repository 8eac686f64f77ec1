import MToolkit.Utilities.RoundTrip

/-!
# What fits, and what is accepted

The exact bounds of the two classes of `utilities/serialize.h`. A writer leaves its block as soon as
the values do not fit, but what it counts of a string is the length in 32 bits
(`Serialize.serializePack_iff`): values come back from the reader just when all of them fit
(`Serialize.returns_iff`). A reader takes what it finds: it accepts a block just when this begins
with the bytes of values of the types it asks for (`Deserialize.accepts_iff`).
-/

namespace MToolkit

open Memory

/-! ### What a writer takes -/

namespace Item

/-- What is written of a value: the length of a string is passed in 32 bits. -/
def cut : Item → Item
  | .string item => .string (item.take (item.length % 2 ^ 32))
  | .chars item => .chars
    ⟨item.bytes.take (item.bytes.length % 2 ^ 32), fun h => item.nul_free (List.mem_of_mem_take h)⟩
  | item => item

theorem length_take_mod (bytes : List UInt8) (n : ℕ) :
    (bytes.take (bytes.length % n)).length = bytes.length % n :=
  List.length_take_of_le (Nat.mod_le _ _)

theorem width_readBack (item : Item) : item.readBack.width = item.width := by
  cases item <;> rfl

end Item

namespace Serialize

variable {s u : Serialize} {bytes : List UInt8} {n : ℕ}

theorem room_wrote_iff (hs : s.Room bytes.length) :
    (s.wrote bytes).Room n ↔ s.Room (bytes.length + n) := by
  refine ⟨fun h => ⟨?_, hs.lt⟩, Room.wrote⟩
  have hle := h.le
  have hbuf : (s.wrote bytes).buffer.length = s.buffer.length := length_overwrite hs.le
  rw [hs.toNat_size, hbuf] at hle
  omega

/-- **A value of fixed size is appended** just when there is room. -/
theorem append_iff {α : Type} (L : Layout α) (item : α) (hs : s.Room 0) :
    s.append L item = some u ↔ s.Room L.size ∧ u = s.wrote (L.encode item) := by
  by_cases hroom : s.Room L.size
  · rw [append_eq L item hroom, Option.some_inj, eq_comm]
    exact (and_iff_right hroom).symm
  · refine iff_of_false ?_ fun h => hroom h.1
    have hle : ¬s.size.toNat + (L.encode item).length ≤ s.buffer.length := by
      rw [L.length_encode]
      exact fun hle => hroom ⟨hle, hs.lt⟩
    rw [append, store, if_neg hle]
    exact (Option.some_ne_none u).symm

/-- A string is appended as if it were as long as its length says in 32 bits. -/
theorem appendBytes_take (item : List UInt8) :
    s.appendBytes (terminated item) (UInt32.ofNat item.length) =
      s.appendBytes (terminated (item.take (item.length % 2 ^ 32)))
        (UInt32.ofNat (item.take (item.length % 2 ^ 32)).length) := by
  have hmod := Nat.mod_le item.length (2 ^ 32)
  have hlen := Item.length_take_mod item (2 ^ 32)
  have hsize : UInt32.ofNat (item.take (item.length % 2 ^ 32)).length =
      UInt32.ofNat item.length := by
    rw [← UInt32.toNat_inj, UInt32.toNat_ofNat', UInt32.toNat_ofNat', hlen, Nat.mod_mod]
  have hnat : (UInt32.ofNat item.length).toNat = item.length % 2 ^ 32 := UInt32.toNat_ofNat'
  have hload : load (terminated item) 0 (item.length % 2 ^ 32) =
      load (terminated (item.take (item.length % 2 ^ 32))) 0 (item.length % 2 ^ 32) := by
    rw [load_of_le (by rw [terminated, List.length_append]; omega),
      load_of_le (by rw [terminated, List.length_append, hlen]; omega), List.drop_zero,
      List.drop_zero, terminated, terminated, List.take_append_of_le_length hmod,
      List.take_append_of_le_length hlen.ge, List.take_take, min_self]
  simp only [appendBytes, hsize, hnat, hload]

/-- **A string is appended** just when there is room. -/
theorem appendBytes_iff (item : List UInt8) (hitem : item.length < 2 ^ 32) (hs : s.Room 0) :
    s.appendBytes (terminated item) (UInt32.ofNat item.length) = some u ↔
      s.Room (4 + item.length) ∧ u = s.wrote (Item.encodeString item) := by
  by_cases hroom : s.Room (4 + item.length)
  · rw [appendBytes_eq item hroom, Option.some_inj, eq_comm]
    exact (and_iff_right hroom).symm
  · refine iff_of_false (fun happend => hroom ?_) fun h => hroom h.1
    have hhead : (Layout.uint32.encode (UInt32.ofNat item.length)).length = 4 :=
      Layout.length_encode _ _
    have hnat : (UInt32.ofNat item.length).toNat = item.length := by
      rw [UInt32.toNat_ofNat', Nat.mod_eq_of_lt hitem]
    -- the length has been written, and then the bytes
    obtain ⟨t, ht, happend⟩ := Option.bind_eq_some_iff.mp happend
    obtain ⟨hfour, rfl⟩ := (append_iff Layout.uint32 _ hs).mp ht
    obtain ⟨bytes, hload, happend⟩ := Option.bind_eq_some_iff.mp happend
    obtain ⟨buffer, hstore, -⟩ := Option.bind_eq_some_iff.mp happend
    have hbytes : bytes.length = item.length := (length_of_load hload).trans hnat
    rw [store] at hstore
    split_ifs at hstore with hle
    rw [← hbytes, ← hhead]
    have hfour : s.Room (Layout.uint32.encode (UInt32.ofNat item.length)).length := by rwa [hhead]
    refine (room_wrote_iff hfour).mp ⟨hle, ?_⟩
    exact (length_overwrite hfour.le).trans_lt hs.lt

/-- **One value.** -/
theorem write_iff (item : Item) (hs : s.Room 0) :
    s.write item = some u ↔ s.Room item.cut.width ∧ u = s.wrote item.cut.encode := by
  have hlt : ∀ bytes : List UInt8, (bytes.take (bytes.length % 2 ^ 32)).length < 2 ^ 32 := by
    intro bytes
    rw [Item.length_take_mod]
    exact Nat.mod_lt _ (by decide)
  cases item with
  | string item =>
    rw [write, appendBytes_take]
    exact appendBytes_iff _ (hlt item) hs
  | chars item =>
    rw [write, strlen_terminated, appendBytes_take]
    exact appendBytes_iff _ (hlt item.bytes) hs
  | _ => exact append_iff _ _ hs

/-- **What a writer takes**: it stays inside its block just when all values fit, with strings as
long as their lengths say in 32 bits, and then it has written these. -/
theorem serializePack_iff (items : List Item) (hs : s.Room 0) :
    s.serializePack items = some u ↔ s.Room ((items.map Item.cut).map Item.width).sum ∧
      u = s.wrote ((items.map Item.cut).flatMap Item.encode) := by
  induction items generalizing s with
  | nil =>
    change some s = some u ↔ _ ∧ u = s.wrote []
    rw [wrote_nil, Option.some_inj, eq_comm]
    exact (and_iff_right hs).symm
  | cons item items ih =>
    rw [serializePack, List.foldlM_cons, Option.bind_eq_bind, Option.bind_eq_some_iff]
    change (∃ v, s.write item = some v ∧ v.serializePack items = some u) ↔ _
    simp only [write_iff item hs, List.map_cons, List.sum_cons, List.flatMap_cons]
    have hlen := Item.length_encode item.cut
    constructor
    · rintro ⟨v, ⟨hroom, rfl⟩, hpack⟩
      rw [← hlen] at hroom
      obtain ⟨hrest, rfl⟩ := (ih (hroom.wrote (n := 0))).mp hpack
      rw [← hlen]
      exact ⟨(room_wrote_iff hroom).mp hrest, wrote_wrote hroom _⟩
    · rintro ⟨hroom, rfl⟩
      rw [← hlen] at hroom
      have hfirst := hroom.mono (Nat.le_add_right _ _)
      refine ⟨_, ⟨hlen ▸ hfirst, rfl⟩, (ih (hfirst.wrote (n := 0))).mpr ?_⟩
      exact ⟨hroom.wrote, (wrote_wrote hfirst _).symm⟩

end Serialize

/-! ### What a reader accepts -/

/-- The type that a value comes back with. -/
def Kind.received : Kind → Kind
  | .chars => .string
  | kind => kind

namespace Deserialize

variable {d d' : Deserialize} {ahead : List UInt8}

/-- **A value of fixed size is extracted** just when its bytes are ahead. -/
theorem extract_iff {α : Type} (L : Layout α) {a : α} (h : d.Ahead ahead) :
    d.extract L = some (a, d') ↔ L.encode a <+: ahead ∧ d' = d.advance L.size := by
  constructor
  · intro hextract
    obtain ⟨bytes, hload, hextract⟩ := Option.bind_eq_some_iff.mp hextract
    obtain ⟨item, hitem, heq⟩ := Option.bind_eq_some_iff.mp hextract
    obtain ⟨rfl, rfl⟩ := Prod.mk.inj (Option.some.inj heq)
    refine ⟨?_, rfl⟩
    rw [L.decode_eq_some.mp hitem]
    rw [load] at hload
    split_ifs at hload
    rw [← Option.some.inj hload, h.drop]
    exact List.take_prefix L.size ahead
  · rintro ⟨⟨rest, rfl⟩, rfl⟩
    exact extract_eq L a h

theorem extractString_iff {item : List UInt8} (h : d.Ahead ahead) :
    d.extractString = some (item, d') ↔
      Item.encodeString item <+: ahead ∧ d' = d.advance (4 + item.length) := by
  constructor
  · intro hextract
    obtain ⟨⟨len, t⟩, ht, hextract⟩ := Option.bind_eq_some_iff.mp hextract
    obtain ⟨⟨rest, rfl⟩, rfl⟩ := (extract_iff Layout.uint32 h).mp ht
    obtain ⟨bytes, hload, heq⟩ := Option.bind_eq_some_iff.mp hextract
    obtain ⟨rfl, rfl⟩ := Prod.mk.inj (Option.some.inj heq)
    have hlen : bytes.length = len.toNat := length_of_load hload
    have hnext := h.advance
    rw [Layout.length_encode] at hnext
    have hbytes : bytes <+: rest := by
      rw [load] at hload
      split_ifs at hload
      rw [← Option.some.inj hload]
      change List.take len.toNat (d.data.drop (d.advance 4).offset.toNat) <+: rest
      rw [show d.data.drop (d.advance 4).offset.toNat = rest from hnext.drop]
      exact List.take_prefix len.toNat rest
    refine ⟨?_, ?_⟩
    · rw [Item.encodeString, hlen, UInt32.ofNat_toNat]
      exact (List.prefix_append_right_inj _).mpr hbytes
    · rw [← advance_advance, hlen, advance, advance, UInt32.ofNat_toNat]
      rfl
  · rintro ⟨⟨rest, rfl⟩, rfl⟩
    exact extractString_eq item h

/-- Of the values of one type. -/
theorem map_iff {α : Type} {x : Option (α × Deserialize)} {f : α → Item} {kind : Kind} {item : Item}
    (hx : ∀ a, x = some (a, d') ↔ (f a).encode <+: ahead ∧ d' = d.advance (f a).width)
    (hf : ∀ item : Item, item.kind = kind ↔ ∃ a, item = f a) :
    x.map (Prod.map f id) = some (item, d') ↔
      item.kind = kind ∧ item.encode <+: ahead ∧ d' = d.advance item.width := by
  rw [Option.map_eq_some_iff]
  constructor
  · rintro ⟨⟨a, t⟩, hread, heq⟩
    obtain ⟨rfl, rfl⟩ := Prod.mk.inj heq
    exact ⟨(hf (f a)).mpr ⟨a, rfl⟩, (hx a).mp hread⟩
  · rintro ⟨hof, hread⟩
    obtain ⟨a, rfl⟩ := (hf item).mp hof
    exact ⟨(a, d'), (hx a).mpr hread, rfl⟩

/-- **One value.** -/
theorem read_iff {kind : Kind} {item : Item} (h : d.Ahead ahead) :
    d.read kind = some (item, d') ↔
      item.kind = kind.received ∧ item.encode <+: ahead ∧ d' = d.advance item.width := by
  cases kind with
  | bool =>
    exact map_iff (fun a => extract_iff Layout.bool h)
      (fun item => by cases item <;> simp [Item.kind, Kind.received])
  | int =>
    exact map_iff (fun a => extract_iff Layout.int32 h)
      (fun item => by cases item <;> simp [Item.kind, Kind.received])
  | uint32 =>
    exact map_iff (fun a => extract_iff Layout.uint32 h)
      (fun item => by cases item <;> simp [Item.kind, Kind.received])
  | uint64 | double =>
    exact map_iff (fun a => extract_iff Layout.uint64 h)
      (fun item => by cases item <;> simp [Item.kind, Kind.received])
  | int64 =>
    exact map_iff (fun a => extract_iff Layout.int64 h)
      (fun item => by cases item <;> simp [Item.kind, Kind.received])
  | string | chars =>
    exact map_iff (fun a => extractString_iff h)
      (fun item => by cases item <;> simp [Item.kind, Kind.received])

/-- **What a reader accepts**: it reads the values just when they are of the types that it asks for
and the bytes ahead begin with theirs, one behind the other. -/
theorem deserializePack_iff {kinds : List Kind} {items : List Item} (h : d.Ahead ahead) :
    d.deserializePack kinds = some (items, d') ↔ items.map Item.kind = kinds.map Kind.received ∧
      items.flatMap Item.encode <+: ahead ∧ d' = d.advance (items.map Item.width).sum := by
  induction kinds generalizing d ahead items with
  | nil =>
    rw [deserializePack, Option.some_inj, Prod.mk.injEq]
    constructor
    · rintro ⟨rfl, rfl⟩
      exact ⟨rfl, List.nil_prefix, advance_zero.symm⟩
    · rintro ⟨hkind, -, rfl⟩
      obtain rfl := List.map_eq_nil_iff.mp hkind
      exact ⟨rfl, advance_zero.symm⟩
  | cons kind kinds ih =>
    rw [deserializePack, Option.bind_eq_bind, Option.bind_eq_some_iff]
    constructor
    · rintro ⟨⟨item, t⟩, hread, hrest⟩
      obtain ⟨hkind, ⟨rest, rfl⟩, rfl⟩ := (read_iff h).mp hread
      obtain ⟨⟨items', t⟩, hpack, heq⟩ := Option.bind_eq_some_iff.mp hrest
      obtain ⟨rfl, rfl⟩ := Prod.mk.inj (Option.some.inj heq)
      have hnext := h.advance
      rw [Item.length_encode] at hnext
      obtain ⟨hkinds, hprefix, rfl⟩ := (ih hnext).mp hpack
      refine ⟨congrArg₂ _ hkind hkinds, ?_, ?_⟩
      · rw [List.flatMap_cons]
        exact (List.prefix_append_right_inj _).mpr hprefix
      · rw [advance_advance, List.map_cons, List.sum_cons]
    · rintro ⟨hkinds, ⟨rest, rfl⟩, rfl⟩
      cases items with
      | nil => cases hkinds
      | cons item items =>
        obtain ⟨hkind, hkinds⟩ := List.cons.inj hkinds
        rw [List.flatMap_cons, List.append_assoc] at h
        have hread := (read_iff h).mpr ⟨hkind, List.prefix_append _ _, rfl⟩
        have hnext := h.advance
        rw [Item.length_encode] at hnext
        have hsum : d.advance ((item :: items).map Item.width).sum =
            (d.advance item.width).advance (items.map Item.width).sum := by
          rw [advance_advance, List.map_cons, List.sum_cons]
        have hpack := (ih hnext).mpr ⟨hkinds, List.prefix_append _ rest, hsum⟩
        exact ⟨_, hread, Option.bind_eq_some_iff.mpr ⟨_, hpack, rfl⟩⟩

/-- The values are read from the front of the block, and the reader ends at position `n`. -/
def Accepts (data : List UInt8) (kinds : List Kind) (items : List Item) (n : ℕ) : Prop :=
  ∃ d, (init data).deserializePack kinds = some (items, d) ∧ d.offset.toNat = n

/-- **Which blocks are accepted**: those that begin with the bytes of values of the types that are
asked for, and the reader ends behind these bytes. A block that is cut short before is not
accepted. -/
theorem accepts_iff (data : List UInt8) (hdata : data.length < 2 ^ 32) (kinds : List Kind)
    (items : List Item) (n : ℕ) :
    (Accepts data kinds items n ↔ items.map Item.kind = kinds.map Kind.received ∧
      items.flatMap Item.encode <+: data ∧ (items.flatMap Item.encode).length = n) ∧
      (Accepts data kinds items n →
        ∀ m < n, ∀ items' n', ¬Accepts (data.take m) kinds items' n') := by
  have hiff : ∀ {data : List UInt8}, data.length < 2 ^ 32 → ∀ items n,
      Accepts data kinds items n ↔ items.map Item.kind = kinds.map Kind.received ∧
        items.flatMap Item.encode <+: data ∧ (items.flatMap Item.encode).length = n := by
    intro data hdata items n
    have hoffset : items.flatMap Item.encode <+: data →
        ((init data).advance (items.map Item.width).sum).offset.toNat =
          (items.flatMap Item.encode).length := by
      intro hprefix
      have hle := hprefix.length_le
      rw [← Item.length_flatMap_encode]
      change ((0 : UInt32) + UInt32.ofNat (items.flatMap Item.encode).length).toNat = _
      rw [UInt32.zero_add, UInt32.toNat_ofNat', Nat.mod_eq_of_lt (by omega)]
    constructor
    · rintro ⟨d, hpack, rfl⟩
      obtain ⟨hkinds, hprefix, rfl⟩ := (deserializePack_iff (ahead_init hdata)).mp hpack
      exact ⟨hkinds, hprefix, (hoffset hprefix).symm⟩
    · rintro ⟨hkinds, hprefix, rfl⟩
      exact ⟨_, (deserializePack_iff (ahead_init hdata)).mpr ⟨hkinds, hprefix, rfl⟩,
        hoffset hprefix⟩
  refine ⟨hiff hdata items n, fun haccepts m hm items' n' hshorter => ?_⟩
  have htake : (data.take m).length < 2 ^ 32 := by
    rw [List.length_take]
    omega
  obtain ⟨hkinds', hprefix, rfl⟩ := (hiff htake items' n').mp hshorter
  -- what is read of the shorter block is read of the longer one
  have hlonger : Accepts data kinds items' (items'.flatMap Item.encode).length :=
    (hiff hdata items' _).mpr ⟨hkinds', hprefix.trans (List.take_prefix m data), rfl⟩
  obtain ⟨d, hpack, rfl⟩ := haccepts
  obtain ⟨d', hpack', hlen⟩ := hlonger
  obtain ⟨-, rfl⟩ := Prod.mk.inj (Option.some.inj (hpack.symm.trans hpack'))
  have hle := hprefix.length_le
  have := List.length_take_le m data
  omega

/-- A string of two bytes is read from a block that has one more, and not from one that is cut
short. -/
theorem accepts_string : Accepts [2, 0, 0, 0, 65, 66, 7] [.string] [.string [65, 66]] 6 ∧
    ¬Accepts [2, 0, 0, 0, 65] [.string] [.string [65]] 5 := by
  obtain ⟨hiff, hshort⟩ :=
    accepts_iff [2, 0, 0, 0, 65, 66, 7] (by decide) [.string] [.string [65, 66]] 6
  have haccepts := hiff.mpr ⟨rfl, ⟨[7], rfl⟩, rfl⟩
  exact ⟨haccepts, hshort haccepts 5 (by decide) _ _⟩

end Deserialize

namespace Serialize

/-- Values that fit are read back. -/
theorem deserializePack_str {reserve : UInt32} {found : ℕ → UInt8} {items : List Item}
    {s : Serialize} (hfit : (items.map Item.width).sum ≤ reserve.toNat)
    (hpack : (init reserve found).serializePack items = some s) :
    ∃ d, (Deserialize.init s.str).deserializePack (items.map Item.kind) =
      some (items.map Item.readBack, d) := by
  obtain ⟨-, hstr⟩ := serializePack_init hfit hpack
  have hlen : s.str.length < 2 ^ 32 := by
    refine lt_of_le_of_lt (le_of_eq ?_) reserve.toNat_lt
    rw [hstr, List.length_append, List.length_drop, length_init, Item.length_flatMap_encode]
    omega
  have hahead := Deserialize.ahead_init hlen
  rw [hstr] at hahead ⊢
  exact ⟨_, Deserialize.deserializePack_eq items hahead⟩

/-- **When values come back**: the writer stays inside its block and the reader reads what has been
written, just when all values fit. -/
theorem returns_iff (reserve : UInt32) (found : ℕ → UInt8) (items : List Item) :
    (∃ s d, (init reserve found).serializePack items = some s ∧
      (Deserialize.init s.str).deserializePack (items.map Item.kind) =
        some (items.map Item.readBack, d)) ↔
      (items.map Item.width).sum ≤ reserve.toNat := by
  constructor
  · rintro ⟨s, d, hpack, hread⟩
    -- what has been written are the strings as they have been cut
    obtain ⟨hroom, rfl⟩ := (serializePack_iff items (room_init (Nat.zero_le _))).mp hpack
    have hfit : ((items.map Item.cut).map Item.width).sum ≤ reserve.toNat := by
      have hle := hroom.le
      rw [length_init] at hle
      exact (Nat.le_add_left _ _).trans hle
    obtain ⟨d', hread'⟩ := deserializePack_str hfit (serializePack_eq _ hroom)
    have hkind : (items.map Item.cut).map Item.kind = items.map Item.kind := by
      rw [List.map_map]
      exact List.map_congr_left fun item _ => by cases item <;> rfl
    rw [hkind, hread] at hread'
    have hback : items.map Item.readBack = (items.map Item.cut).map Item.readBack :=
      congrArg Prod.fst (Option.some.inj hread')
    have hsame : Item.width ∘ Item.readBack = Item.width := funext Item.width_readBack
    have hwidth : items.map Item.width = (items.map Item.cut).map Item.width := by
      rw [← hsame, ← List.map_map, hback, List.map_map]
    rw [hwidth]
    exact hfit
  · intro hfit
    have hroom : (init reserve found).Room (items.map Item.width).sum := room_init hfit
    have hpack := serializePack_eq items hroom
    obtain ⟨d, hread⟩ := deserializePack_str hfit hpack
    exact ⟨_, d, hpack, hread⟩

end Serialize

end MToolkit

import MToolkit.Library.Streams
import MToolkit.Utilities.NetAddress

/-!
# What is taken for a range

A range of addresses is one address, or two with a separator between them, or one with the length
of a prefix (`Net.Grammar`). What is returned for a text is the comparison of two words only, and
a text that is no address is converted like one: to the greatest word in host order, to 0 in
network order. So one address is never refused, a prefix is refused for its length only, and two
addresses are refused where the words happen to be in the wrong order.
`Net.OnlyGrammar_iff` says which texts are told apart from ranges for all that.
-/

namespace MToolkit

open Decimal Octets DottedQuad Strings

namespace Net

/-- The C library accepts the text, which is all of a C string. -/
def Accepts (lib : List Char → Option UInt32) (text : List Char) : Prop :=
  '\x00' ∉ text ∧ lib text ≠ none

/-- **The grammar of ranges**, over the texts of addresses. -/
inductive Grammar (lib : List Char → Option UInt32) : List Char → Prop
  | single {ta : List Char} (ha : Accepts lib ta) : Grammar lib ta
  | dash {ta tb : List Char} (ha : Accepts lib ta) (hb : Accepts lib tb) :
      Grammar lib (ta ++ '-' :: tb)
  | mask {ta te : List Char} (ha : Accepts lib ta) (he : Digits te) (hle : value te ≤ 32) :
      Grammar lib (ta ++ '/' :: te)
  | slash {ta tb : List Char} (ha : Accepts lib ta) (hb : Accepts lib tb) :
      Grammar lib (ta ++ '/' :: tb)

/-- The C library accepts numbers and dots, and **no separator**. -/
def Plain (lib : List Char → Option UInt32) : Prop :=
  ∀ text, lib text ≠ none → '-' ∉ text ∧ '/' ∉ text

/-- **What is taken for a range is one.** -/
def OnlyGrammar (lib : List Char → Option UInt32)
    (range : List Char → UInt32 → UInt32 → Bool × UInt32 × UInt32) (text : List Char) : Prop :=
  ∀ head tail, (range text head tail).1 = true → Grammar lib text

/-- Two texts are addresses, or are refused. -/
def PairCareful (lib : List Char → Option UInt32) (refused : List Char → List Char → Prop)
    (front rest : List Char) : Prop :=
  (Accepts lib front ∧ Accepts lib rest) ∨ refused front rest

/-- What is behind the slash is an address or a length and the rest is an address, or it reads as
a number that is no length. -/
def MaskCareful (lib : List Char → Option UInt32) (front rest : List Char) : Prop :=
  (Accepts lib front ∧ (Accepts lib rest ∨ Digits rest ∧ value rest ≤ 32)) ∨
    32 < strtol (c_str rest) ∨ strtol (c_str rest) < 0

/-- **A text that is told apart**, by the first dash in it, or else by the first slash. -/
structure Careful (lib : List Char → Option UInt32) (refused : List Char → List Char → Prop)
    (text : List Char) : Prop where
  single : '-' ∉ text → '/' ∉ text → Accepts lib text
  dash : ∀ front rest, text = front ++ '-' :: rest → '-' ∉ front →
    PairCareful lib refused front rest
  mask : ∀ front rest, text = front ++ '/' :: rest → '-' ∉ text → '/' ∉ front → '.' ∉ rest →
    MaskCareful lib front rest
  slash : ∀ front rest, text = front ++ '/' :: rest → '-' ∉ text → '/' ∉ front → '.' ∈ rest →
    PairCareful lib refused front rest

section Conversion

variable {lib : List Char → Option UInt32} {text front rest : List Char}

theorem Accepts.plain (hlib : Plain lib) (h : Accepts lib text) : '-' ∉ text ∧ '/' ∉ text :=
  hlib text h.2

/-! ### Where the grammar splits a text -/

/-- A range without separators is one address. -/
theorem grammar_iff_single (hdash : '-' ∉ text) (hslash : '/' ∉ text) :
    Grammar lib text ↔ Accepts lib text := by
  constructor
  · intro h
    cases h with
    | single ha => exact ha
    | dash => exact absurd (Streams.mem_line_end ..) hdash
    | mask => exact absurd (Streams.mem_line_end ..) hslash
    | slash => exact absurd (Streams.mem_line_end ..) hslash
  · exact .single

/-- A range with a dash is two addresses. -/
theorem grammar_iff_dash (hlib : Plain lib) (hdash : '-' ∉ front) :
    Grammar lib (front ++ '-' :: rest) ↔ Accepts lib front ∧ Accepts lib rest := by
  constructor
  · intro h
    generalize htext : front ++ '-' :: rest = text at h
    have hmem : '-' ∈ text := htext ▸ Streams.mem_line_end ..
    cases h with
    | single ha => exact absurd hmem (ha.plain hlib).1
    | dash ha hb =>
      obtain ⟨rfl, rfl⟩ := Streams.append_cons_unique hdash (ha.plain hlib).1 htext
      exact ⟨ha, hb⟩
    | mask ha he =>
      exact absurd hmem (notMem_append_cons (ha.plain hlib).1 (by decide) (he.notMem rfl))
    | slash ha hb =>
      exact absurd hmem (notMem_append_cons (ha.plain hlib).1 (by decide) (hb.plain hlib).1)
  · exact fun h => .dash h.1 h.2

/-- A range with a slash and no dash has an address in front of it. -/
theorem grammar_iff_slash (hlib : Plain lib) (hdash : '-' ∉ front ++ '/' :: rest)
    (hslash : '/' ∉ front) :
    Grammar lib (front ++ '/' :: rest) ↔
      Accepts lib front ∧ (Accepts lib rest ∨ Digits rest ∧ value rest ≤ 32) := by
  constructor
  · intro h
    generalize htext : front ++ '/' :: rest = text at h hdash
    have hmem : '/' ∈ text := htext ▸ Streams.mem_line_end ..
    cases h with
    | single ha => exact absurd hmem (ha.plain hlib).2
    | dash => exact absurd (Streams.mem_line_end ..) hdash
    | mask ha he hle =>
      obtain ⟨rfl, rfl⟩ := Streams.append_cons_unique hslash (ha.plain hlib).2 htext
      exact ⟨ha, .inr ⟨he, hle⟩⟩
    | slash ha hb =>
      obtain ⟨rfl, rfl⟩ := Streams.append_cons_unique hslash (ha.plain hlib).2 htext
      exact ⟨ha, .inl hb⟩
  · rintro ⟨ha, hb | ⟨he, hle⟩⟩
    · exact .slash ha hb
    · exact .mask ha he hle

/-- Where there is a dot behind the slash, that is two addresses. -/
theorem grammar_iff_slash_dot (hlib : Plain lib) (hdash : '-' ∉ front ++ '/' :: rest)
    (hslash : '/' ∉ front) (hdot : '.' ∈ rest) :
    Grammar lib (front ++ '/' :: rest) ↔ Accepts lib front ∧ Accepts lib rest := by
  rw [grammar_iff_slash hlib hdash hslash]
  refine and_congr_right fun _ => or_iff_left ?_
  rintro ⟨he, -⟩
  exact absurd hdot (he.notMem rfl)

/-! ### Form by form -/

variable {as : List Char → UInt32} {order : UInt32 → UInt32}
  {refused : List Char → List Char → Prop}

/-- **What is refused whatever the head and the tail are before**, and nothing else, need not be in
the grammar. -/
theorem onlyGrammar_iff_or {range : List Char → UInt32 → UInt32 → Bool × UInt32 × UInt32}
    {unread : Prop} (hreturned : ∀ head tail, (range text head tail).1 = true ↔ ¬unread) :
    OnlyGrammar lib range text ↔ Grammar lib text ∨ unread := by
  constructor
  · intro h
    by_cases hunread : unread
    · exact .inr hunread
    · exact .inl (h 0 0 ((hreturned 0 0).mpr hunread))
  · rintro (h | hunread) head tail htrue
    · exact h
    · exact absurd hunread ((hreturned head tail).mp htrue)

/-- One text is never refused. -/
theorem onlyGrammar_single (hdash : '-' ∉ text) (hslash : '/' ∉ text) :
    OnlyGrammar lib (AsByteRange as order) text ↔ Accepts lib text := by
  have hreturned : ∀ head tail, (AsByteRange as order text head tail).1 = true ↔ ¬False := by
    intro head tail
    rw [AsByteRange_single hdash hslash]
    exact iff_of_true rfl not_false
  rw [onlyGrammar_iff_or hreturned, or_false, grammar_iff_single hdash hslash]

/-- Two texts are refused where the second is converted to a smaller word. -/
theorem onlyGrammar_dash (hlib : Plain lib)
    (hrefused : ∀ front rest, refused front rest ↔ as (c_str rest) < as (c_str front))
    (hdash : '-' ∉ front) :
    OnlyGrammar lib (AsByteRange as order) (front ++ '-' :: rest) ↔
      PairCareful lib refused front rest := by
  have hreturned : ∀ head tail, (AsByteRange as order (front ++ '-' :: rest) head tail).1 = true ↔
      ¬refused front rest := by
    intro head tail
    rw [AsByteRange_dash hdash, hrefused, decide_eq_true_iff, UInt32.not_lt]
  rw [onlyGrammar_iff_or hreturned, grammar_iff_dash hlib hdash, PairCareful]

theorem onlyGrammar_slash (hlib : Plain lib)
    (hrefused : ∀ front rest, refused front rest ↔ as (c_str rest) < as (c_str front))
    (hdash : '-' ∉ front ++ '/' :: rest) (hslash : '/' ∉ front) (hdot : '.' ∈ rest) :
    OnlyGrammar lib (AsByteRange as order) (front ++ '/' :: rest) ↔
      PairCareful lib refused front rest := by
  have hreturned : ∀ head tail, (AsByteRange as order (front ++ '/' :: rest) head tail).1 = true ↔
      ¬refused front rest := by
    intro head tail
    rw [AsByteRange_slash hdash hslash hdot, hrefused, decide_eq_true_iff, UInt32.not_lt]
  rw [onlyGrammar_iff_or hreturned, grammar_iff_slash_dot hlib hdash hslash hdot, PairCareful]

/-- A prefix is refused for its length only. -/
theorem onlyGrammar_mask (hlib : Plain lib) (hdash : '-' ∉ front ++ '/' :: rest)
    (hslash : '/' ∉ front) (hdot : '.' ∉ rest) :
    OnlyGrammar lib (AsByteRange as order) (front ++ '/' :: rest) ↔ MaskCareful lib front rest := by
  have hreturned : ∀ head tail, (AsByteRange as order (front ++ '/' :: rest) head tail).1 = true ↔
      ¬(32 < strtol (c_str rest) ∨ strtol (c_str rest) < 0) := by
    intro head tail
    rw [AsByteRange_mask hdash hslash hdot]
    by_cases hlength : 32 < strtol (c_str rest) ∨ strtol (c_str rest) < 0
    · exact iff_of_false (by rw [if_pos hlength]; exact Bool.false_ne_true) (not_not.mpr hlength)
    · exact iff_of_true (by rw [if_neg hlength]) hlength
  rw [onlyGrammar_iff_or hreturned, grammar_iff_slash hlib hdash hslash, MaskCareful]

/-- **One conversion**, with the words that it refuses. -/
theorem onlyGrammar_iff_careful (hlib : Plain lib)
    (hrefused : ∀ front rest, refused front rest ↔ as (c_str rest) < as (c_str front))
    (text : List Char) :
    OnlyGrammar lib (AsByteRange as order) text ↔ Careful lib refused text := by
  constructor
  · intro h
    constructor
    · exact fun hdash hslash => (onlyGrammar_single hdash hslash).mp h
    · rintro front rest rfl hdash
      exact (onlyGrammar_dash hlib hrefused hdash).mp h
    · rintro front rest rfl hdash hslash hdot
      exact (onlyGrammar_mask hlib hdash hslash hdot).mp h
    · rintro front rest rfl hdash hslash hdot
      exact (onlyGrammar_slash hlib hrefused hdash hslash hdot).mp h
  · intro h
    cases form text with
    | single hdash hslash => exact (onlyGrammar_single hdash hslash).mpr (h.single hdash hslash)
    | dash hdash => exact (onlyGrammar_dash hlib hrefused hdash).mpr (h.dash _ _ rfl hdash)
    | mask hdash hslash hdot =>
      exact (onlyGrammar_mask hlib hdash hslash hdot).mpr (h.mask _ _ rfl hdash hslash hdot)
    | slash hdash hslash hdot =>
      exact (onlyGrammar_slash hlib hrefused hdash hslash hdot).mpr
        (h.slash _ _ rfl hdash hslash hdot)

end Conversion

/-! ### The two conversions -/

/-- In host order two texts are refused where the second is read, as a word other than the
greatest, and the first is read as a greater one or not at all. -/
def HostRefused (lib : List Char → Option UInt32) (front rest : List Char) : Prop :=
  ∃ w, lib (c_str rest) = some w ∧ w ≠ inaddrNone ∧ ∀ v, lib (c_str front) = some v → w < v

/-- In network order two texts are refused where the first is read, as a word other than 0, and
the second is read as a smaller one or not at all. -/
def NetRefused (lib : List Char → Option UInt32) (front rest : List Char) : Prop :=
  ∃ v, lib (c_str front) = some v ∧ v ≠ 0 ∧ ∀ w, lib (c_str rest) = some w → w < v

theorem hostRefused_iff (inet : Inet) (front rest : List Char) :
    HostRefused inet.inet_network front rest ↔
      AsHostByte inet (c_str rest) < AsHostByte inet (c_str front) := by
  have hnone : inaddrNone.toNat = 2 ^ 32 - 1 := rfl
  rw [HostRefused, AsHostByte, AsHostByte]
  cases hrest : inet.inet_network (c_str rest) with
  | none =>
    have hlt := ((inet.inet_network (c_str front)).getD inaddrNone).toNat_lt
    rw [Option.getD_none, UInt32.lt_iff_toNat_lt, hnone]
    exact iff_of_false (by simp) (by omega)
  | some w =>
    have hw := w.toNat_lt
    cases inet.inet_network (c_str front) with
    | none =>
      simp only [Option.some.injEq, Option.getD_some, Option.getD_none, reduceCtorEq,
        false_implies, implies_true, and_true, exists_eq_left']
      rw [ne_eq, UInt32.lt_iff_toNat_lt, ← UInt32.toNat_inj, hnone]
      omega
    | some v =>
      have hv := v.toNat_lt
      simp only [Option.some.injEq, Option.getD_some, forall_eq', exists_eq_left']
      rw [ne_eq, UInt32.lt_iff_toNat_lt, ← UInt32.toNat_inj, hnone]
      omega

theorem netRefused_iff (inet : Inet) (front rest : List Char) :
    NetRefused inet.inet_pton front rest ↔
      AsNetByte inet (c_str rest) < AsNetByte inet (c_str front) := by
  have hzero : (0 : UInt32).toNat = 0 := rfl
  rw [NetRefused, AsNetByte, AsNetByte]
  cases hfront : inet.inet_pton (c_str front) with
  | none =>
    rw [Option.getD_none, UInt32.lt_iff_toNat_lt, hzero]
    exact iff_of_false (by simp) (Nat.not_lt_zero _)
  | some v =>
    cases inet.inet_pton (c_str rest) with
    | none =>
      simp only [Option.some.injEq, Option.getD_some, Option.getD_none, reduceCtorEq,
        false_implies, implies_true, and_true, exists_eq_left']
      rw [ne_eq, UInt32.lt_iff_toNat_lt, ← UInt32.toNat_inj, hzero]
      omega
    | some w =>
      simp only [Option.some.injEq, Option.getD_some, forall_eq', exists_eq_left']
      rw [ne_eq, UInt32.lt_iff_toNat_lt, ← UInt32.toNat_inj, hzero]
      omega

/-- **Which texts are told apart from ranges**, by the two overloads. -/
theorem OnlyGrammar_iff (inet : Inet) (hhost : Plain inet.inet_network)
    (hnet : Plain inet.inet_pton) (text : List Char) :
    (OnlyGrammar inet.inet_network (AsHostByteRange inet) text ↔
      Careful inet.inet_network (HostRefused inet.inet_network) text) ∧
    (OnlyGrammar inet.inet_pton (AsNetByteRange inet) text ↔
      Careful inet.inet_pton (NetRefused inet.inet_pton) text) :=
  ⟨onlyGrammar_iff_careful hhost (hostRefused_iff inet) text,
    onlyGrammar_iff_careful hnet (netRefused_iff inet) text⟩

theorem plain_read : Plain read := by
  intro text h
  obtain ⟨v, hv⟩ := Option.ne_none_iff_exists'.mp h
  have hquad := read_iff.mp hv
  exact ⟨hquad.notMem rfl (by decide), hquad.notMem rfl (by decide)⟩

theorem plain_quadInet : Plain quadInet.inet_network ∧ Plain quadInet.inet_pton := by
  refine ⟨plain_read, fun text h => plain_read text fun hnone => h ?_⟩
  rw [quadInet]
  dsimp only
  rw [hnone]
  rfl

/-- `"1.2.3.4/x"` is taken for the range of every address from `"1.2.3.4"` on. -/
theorem OnlyGrammar_letter :
    (AsHostByteRange quadInet ['1', '.', '2', '.', '3', '.', '4', '/', 'x'] 0 0 =
      (true, 0x01020304, 0xFFFFFFFF)) ∧
    ¬OnlyGrammar quadInet.inet_network (AsHostByteRange quadInet)
      ['1', '.', '2', '.', '3', '.', '4', '/', 'x'] ∧
    ¬OnlyGrammar quadInet.inet_pton (AsNetByteRange quadInet)
      ['1', '.', '2', '.', '3', '.', '4', '/', 'x'] := by
  have hno : ∀ lib, Plain lib → lib ['x'] = none →
      ¬Grammar lib ['1', '.', '2', '.', '3', '.', '4', '/', 'x'] := by
    intro lib hlib hx h
    have hsplit : ['1', '.', '2', '.', '3', '.', '4', '/', 'x'] =
        ['1', '.', '2', '.', '3', '.', '4'] ++ '/' :: ['x'] := rfl
    rw [hsplit, grammar_iff_slash hlib (by decide) (by decide)] at h
    obtain ⟨-, hb⟩ := h
    rcases hb with hb | ⟨he, -⟩
    · exact hb.2 hx
    · exact absurd (he.isDigit 'x' List.mem_cons_self) (by decide)
  refine ⟨by decide, fun h => ?_, fun h => ?_⟩
  · exact hno _ plain_quadInet.1 rfl (h 0 0 (by decide))
  · exact hno _ plain_quadInet.2 rfl (h 0 0 (by decide))

/-- `"1.2.3.4-1.2.3"`: the second text is no address, and only in network order does it happen to be
refused. -/
theorem OnlyGrammar_iff_short :
    ¬OnlyGrammar quadInet.inet_network (AsHostByteRange quadInet)
        ['1', '.', '2', '.', '3', '.', '4', '-', '1', '.', '2', '.', '3'] ∧
      OnlyGrammar quadInet.inet_pton (AsNetByteRange quadInet)
        ['1', '.', '2', '.', '3', '.', '4', '-', '1', '.', '2', '.', '3'] := by
  obtain ⟨hhost, hnet⟩ := OnlyGrammar_iff quadInet plain_quadInet.1 plain_quadInet.2
    ['1', '.', '2', '.', '3', '.', '4', '-', '1', '.', '2', '.', '3']
  have hnone : quadInet.inet_network ['1', '.', '2', '.', '3'] = none := rfl
  constructor
  · intro h
    rcases (hhost.mp h).dash ['1', '.', '2', '.', '3', '.', '4'] ['1', '.', '2', '.', '3'] rfl
      (by decide) with ⟨-, hb⟩ | ⟨w, hw, -⟩
    · exact hb.2 hnone
    · cases hw
  · refine hnet.mpr ⟨fun hdash => absurd hdash (by decide), fun front rest htext hdash => ?_,
      fun _ _ _ hdash => absurd hdash (by decide), fun _ _ _ hdash => absurd hdash (by decide)⟩
    have hsplit : ['1', '.', '2', '.', '3', '.', '4'] ++ '-' :: ['1', '.', '2', '.', '3'] =
        front ++ '-' :: rest := htext
    obtain ⟨rfl, rfl⟩ := Streams.append_cons_unique (by decide) hdash hsplit
    exact .inr ⟨_, rfl, by decide, nofun⟩

end Net

end MToolkit

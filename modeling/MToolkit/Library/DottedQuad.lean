import MToolkit.Library.Decimal
import MToolkit.Library.Octets

/-!
# Dotted quads

The dotted quad of a word is the numerals of its octets, from the highest on, with dots between
them (`DottedQuad.Quad`). Every word has one (`DottedQuad.quad_iff`), and it is the word's own:
that is what makes it a name of the word. A reader that takes nothing else is
`DottedQuad.read`.
-/

namespace DottedQuad

open Decimal Octets

/-- The numeral of an octet. -/
structure Octet (text : List Char) (n : ℕ) : Prop extends Numeral text n where
  lt : n < 256

/-- **The dotted quad of a word.** -/
inductive Quad : List Char → UInt32 → Prop
  | mk {ta tb tc td : List Char} {a b c d : ℕ} (ha : Octet ta a) (hb : Octet tb b)
      (hc : Octet tc c) (hd : Octet td d) :
      Quad (['.'].intercalate [ta, tb, tc, td]) (ofOctets a b c d)

/-- What the dotted quad of a word is. -/
def quad (v : UInt32) : List Char :=
  ['.'].intercalate
    [Nat.toDigits 10 (octet v 3), Nat.toDigits 10 (octet v 2), Nat.toDigits 10 (octet v 1),
      Nat.toDigits 10 (octet v 0)]

variable {text : List Char} {v w : UInt32} {c : Char} {n : ℕ}

theorem octet_toDigits (v : UInt32) (i : ℕ) : Octet (Nat.toDigits 10 (octet v i)) (octet v i) :=
  ⟨numeral_toDigits _, octet_lt v i⟩

theorem quad_quad (v : UInt32) : Quad (quad v) v := by
  have h := Quad.mk (octet_toDigits v 3) (octet_toDigits v 2) (octet_toDigits v 1)
    (octet_toDigits v 0)
  rw [ofOctets_octet] at h
  exact h

/-- **A word has one dotted quad.** -/
theorem quad_iff : Quad text v ↔ text = quad v := by
  constructor
  · rintro ⟨ha, hb, hc, hd⟩
    obtain ⟨h3, h2, h1, h0⟩ := octet_ofOctets ha.lt hb.lt hc.lt hd.lt
    rw [quad, h3, h2, h1, h0, ← ha.eq_toDigits, ← hb.eq_toDigits, ← hc.eq_toDigits,
      ← hd.eq_toDigits]
  · rintro rfl
    exact quad_quad v

/-- A dotted quad has digits and dots only, -/
theorem Quad.isDigit_or (h : Quad text v) (hc : c ∈ text) : c.isDigit ∨ c = '.' := by
  obtain ⟨ha, hb, hc', hd⟩ := h
  simp only [List.intercalate, List.intersperse_cons_cons, List.intersperse_singleton,
    List.flatten_cons, List.flatten_nil, List.append_nil, List.mem_append,
    List.mem_singleton] at hc
  rcases hc with h | h | h | h | h | h | h
  · exact .inl (ha.isDigit c h)
  · exact .inr h
  · exact .inl (hb.isDigit c h)
  · exact .inr h
  · exact .inl (hc'.isDigit c h)
  · exact .inr h
  · exact .inl (hd.isDigit c h)

/-- and at least one dot. -/
theorem Quad.dot_mem (h : Quad text v) : '.' ∈ text := by
  obtain ⟨ha, hb, hc, hd⟩ := h
  simp only [List.intercalate, List.intersperse_cons_cons, List.intersperse_singleton,
    List.flatten_cons, List.mem_append, List.mem_singleton, true_or, or_true]

theorem Quad.notMem (h : Quad text v) (hdigit : c.isDigit = false) (hdot : c ≠ '.') :
    c ∉ text := by
  intro hmem
  rcases h.isDigit_or hmem with hc | hc
  · rw [hdigit] at hc
    cases hc
  · exact hdot hc

/-! ### A reader -/

/-- The octet that a word is the numeral of. -/
def readOctet (text : List Char) : Option ℕ :=
  if text = Nat.toDigits 10 (value text) ∧ value text < 256 then some (value text) else none

/-- **The word that a text is the dotted quad of.** -/
def read (text : List Char) : Option UInt32 :=
  match text.splitOn '.' with
  | [ta, tb, tc, td] =>
    match readOctet ta, readOctet tb, readOctet tc, readOctet td with
    | some a, some b, some c, some d => some (ofOctets a b c d)
    | _, _, _, _ => none
  | _ => none

theorem readOctet_iff : readOctet text = some n ↔ Octet text n := by
  rw [readOctet]
  constructor
  · intro h
    split at h
    · next hcond =>
      obtain rfl := Option.some.inj h
      exact ⟨numeral_iff.mpr hcond.1, hcond.2⟩
    · cases h
  · intro h
    have hlt := h.lt
    rw [← h.value_eq] at hlt
    have htext := h.eq_toDigits
    rw [← h.value_eq] at htext
    rw [if_pos ⟨htext, hlt⟩, h.value_eq]

/-- **The reader takes the dotted quads.** -/
theorem read_iff : read text = some v ↔ Quad text v := by
  constructor
  · intro h
    rw [read] at h
    split at h
    · next ta tb tc td hsplit =>
      split at h
      · next a b c d ha hb hc hd =>
        obtain rfl := Option.some.inj h
        have htext : ['.'].intercalate (text.splitOn '.') = text := List.intercalate_splitOn '.'
        rw [hsplit] at htext
        rw [← htext]
        exact .mk (readOctet_iff.mp ha) (readOctet_iff.mp hb) (readOctet_iff.mp hc)
          (readOctet_iff.mp hd)
      · cases h
    · cases h
  · rintro ⟨ha, hb, hc, hd⟩
    have hdot : ('.').isDigit = false := rfl
    rw [read, List.splitOn_intercalate '.' _ (List.cons_ne_nil _ _)]
    · dsimp only
      rw [readOctet_iff.mpr ha, readOctet_iff.mpr hb, readOctet_iff.mpr hc, readOctet_iff.mpr hd]
    · simp only [List.mem_cons, List.not_mem_nil, or_false]
      rintro l (rfl | rfl | rfl | rfl)
      · exact ha.notMem hdot
      · exact hb.notMem hdot
      · exact hc.notMem hdot
      · exact hd.notMem hdot

end DottedQuad

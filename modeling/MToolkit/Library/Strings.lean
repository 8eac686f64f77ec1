import Mathlib.Data.List.TakeWhile
import Mathlib.Tactic

/-!
# Strings

What is asked of a `std::string`, where it is the list of its characters: the position of a
character (`Strings.find`), which splits the string at its first occurrence, and the C string that
it holds, which ends at the first null character (`Strings.c_str`).
-/

namespace Strings

/-- `std::string::find` of a character, from a position on. -/
def find (value : List Char) (c : Char) (pos : ℕ) : Option ℕ :=
  ((value.drop pos).findIdx? (· = c)).map fun i => pos + i

/-- `std::string::c_str`, as a C string. -/
def c_str (value : List Char) : List Char := value.takeWhile (· ≠ '\x00')

variable {value front rest : List Char} {c : Char}

/-- A character is not in a string when it is on neither side of another one. -/
theorem notMem_append_cons {d : Char} (hfront : c ∉ front) (hne : c ≠ d) (hrest : c ∉ rest) :
    c ∉ front ++ d :: rest := by
  rw [List.mem_append, List.mem_cons, not_or, not_or]
  exact ⟨hfront, hne, hrest⟩

theorem find_eq_none_iff (value : List Char) (c : Char) (pos : ℕ) :
    find value c pos = none ↔ c ∉ value.drop pos := by
  rw [find, Option.map_eq_none_iff, List.findIdx?_eq_none_iff]
  constructor
  · intro h hmem
    exact absurd (h c hmem) (by simp)
  · rintro h x hx
    simp only [decide_eq_false_iff_not]
    rintro rfl
    exact h hx

theorem find_eq_none (h : c ∉ value) : find value c 0 = none :=
  (find_eq_none_iff value c 0).mpr h

/-- **The first occurrence is found.** -/
theorem find_append (h : c ∉ front) : find (front ++ c :: rest) c 0 = some front.length := by
  have hnone : front.findIdx? (· = c) = none := by
    refine List.findIdx?_eq_none_iff.mpr fun x hx => ?_
    rw [decide_eq_false_iff_not]
    rintro rfl
    exact h hx
  have hidx : (front ++ c :: rest).findIdx? (· = c) = some front.length := by
    rw [List.findIdx?_append, hnone, List.findIdx?_cons, decide_eq_true rfl]
    simp
  rw [find, List.drop_zero, hidx, Option.map_some, Nat.zero_add]

/-- What is behind it. -/
theorem drop_length_succ (front rest : List Char) (c : Char) :
    (front ++ c :: rest).drop (front.length + 1) = rest := by
  rw [← List.drop_drop, List.drop_left, List.drop_one, List.tail_cons]

/-- There is nothing to cut off where there is no null character. -/
theorem c_str_eq (h : '\x00' ∉ value) : c_str value = value := by
  refine List.takeWhile_eq_self_iff.mpr fun x hx => ?_
  rw [decide_eq_true_iff]
  rintro rfl
  exact h hx

end Strings

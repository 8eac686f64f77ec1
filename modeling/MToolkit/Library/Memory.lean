import Mathlib.Data.List.Basic
import Mathlib.Tactic

/-!
# Blocks of memory

A block of memory is a list of cells. Copying to and from it, as `memcpy` does, is partial:
it must stay inside the block (`Memory.store`, `Memory.load`).
-/

namespace Memory

universe u

variable {α : Type u}

/-- The block with the cells from `pos` on overwritten. -/
def overwrite (mem : List α) (pos : ℕ) (cells : List α) : List α :=
  mem.take pos ++ cells ++ mem.drop (pos + cells.length)

/-- Copy the cells to position `pos` of the block. -/
def store (mem : List α) (pos : ℕ) (cells : List α) : Option (List α) :=
  if pos + cells.length ≤ mem.length then some (overwrite mem pos cells) else none

/-- Copy `n` cells from position `pos` of the block. -/
def load (mem : List α) (pos n : ℕ) : Option (List α) :=
  if pos + n ≤ mem.length then some ((mem.drop pos).take n) else none

variable {mem cells : List α} {pos n : ℕ}

theorem store_of_le (h : pos + cells.length ≤ mem.length) :
    store mem pos cells = some (overwrite mem pos cells) := if_pos h

theorem load_of_le (h : pos + n ≤ mem.length) : load mem pos n = some ((mem.drop pos).take n) :=
  if_pos h

/-- What lies ahead in the block is read. -/
theorem load_of_drop {rest : List α} (hpos : pos ≤ mem.length)
    (h : mem.drop pos = cells ++ rest) : load mem pos cells.length = some cells := by
  have hlen : mem.length - pos = cells.length + rest.length := by
    rw [← List.length_drop, h, List.length_append]
  rw [load_of_le (by omega), h, List.take_left]

/-- As many cells are read as were asked for. -/
theorem length_of_load (h : load mem pos n = some cells) : cells.length = n := by
  rw [load] at h
  split_ifs at h with hle
  rw [← Option.some.inj h, List.length_take, List.length_drop]
  omega

@[simp] theorem length_overwrite (h : pos + cells.length ≤ mem.length) :
    (overwrite mem pos cells).length = mem.length := by
  simp only [overwrite, List.length_append, List.length_take, List.length_drop]
  omega

/-- Overwriting no cells. -/
@[simp] theorem overwrite_nil : overwrite mem pos [] = mem := by
  simp [overwrite]

/-- Overwriting from the start on. -/
theorem overwrite_zero (mem cells : List α) :
    overwrite mem 0 cells = cells ++ mem.drop cells.length := by
  simp [overwrite]

/-- What is in the block afterwards. -/
theorem getElem?_overwrite (h : pos + cells.length ≤ mem.length) (j : ℕ) :
    (overwrite mem pos cells)[j]? =
      if pos ≤ j ∧ j < pos + cells.length then cells[j - pos]? else mem[j]? := by
  have hpos : (mem.take pos).length = pos := List.length_take_of_le (by omega)
  rw [overwrite, List.append_assoc]
  by_cases hlo : j < pos
  · rw [if_neg (by omega), List.getElem?_append_left (by rwa [hpos]), List.getElem?_take_of_lt hlo]
  · rw [List.getElem?_append_right (by omega), hpos]
    by_cases hhi : j - pos < cells.length
    · rw [if_pos (by omega), List.getElem?_append_left hhi]
    · rw [if_neg (by omega), List.getElem?_append_right (by omega), List.getElem?_drop]
      congr 1
      omega

/-- The block up to the end of what was copied. -/
theorem take_overwrite (h : pos ≤ mem.length) :
    (overwrite mem pos cells).take (pos + cells.length) = mem.take pos ++ cells := by
  have hlen : (mem.take pos ++ cells).length = pos + cells.length := by
    rw [List.length_append, List.length_take_of_le h]
  rw [overwrite, ← hlen, List.take_left]

/-- The block behind what was copied. -/
theorem drop_overwrite (h : pos ≤ mem.length) (n : ℕ) :
    (overwrite mem pos cells).drop (pos + cells.length + n) =
      mem.drop (pos + cells.length + n) := by
  have hlen : (mem.take pos ++ cells).length = pos + cells.length := by
    rw [List.length_append, List.length_take_of_le h]
  rw [overwrite, ← hlen, List.drop_append, List.drop_eq_nil_of_le (Nat.le_add_right _ _),
    List.nil_append, Nat.add_sub_cancel_left, List.drop_drop]

/-- **One copy after the other**, the second where the first has ended. -/
theorem overwrite_overwrite (h : pos ≤ mem.length) (cells cells' : List α) :
    overwrite (overwrite mem pos cells) (pos + cells.length) cells' =
      overwrite mem pos (cells ++ cells') := by
  rw [overwrite, take_overwrite h, drop_overwrite h, overwrite, List.length_append,
    ← Nat.add_assoc, List.append_assoc (mem.take pos)]

/-- Reading cell by cell, as far as there are cells. -/
theorem filterMap_range_getElem? (mem : List α) (pos n : ℕ) :
    (List.range n).filterMap (fun i => mem[pos + i]?) = (mem.drop pos).take n := by
  induction n with
  | zero => rfl
  | succ n ih =>
    rw [List.range_succ, List.filterMap_append, ih, List.take_add_one, List.getElem?_drop]
    congr 1

end Memory

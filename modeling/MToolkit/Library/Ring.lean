import MToolkit.Library.Memory

/-!
# Ring buffers

A block of memory used cyclically: item `i` of an endless sequence is kept in cell `i`
modulo the length of the block. Writing at the end of the sequence (`Ring.write`) and reading
from where it is kept (`Ring.read`) each take two copies, the second one from the start of the
block on. The block keeps a *window* of the sequence, its items from some number on
(`Ring.Window`), and as long as that is no longer than the block, what is written is what is
read (`Ring.Window.write`, `Ring.Window.read`).
-/

namespace Ring

open Memory

universe u

variable {α : Type u}

/-- Write the items with the numbers from `start` on. -/
def write (mem : List α) (start : ℕ) (items : List α) : Option (List α) := do
  let l := min items.length (mem.length - start % mem.length)
  let mem ← store mem (start % mem.length) (items.take l)
  store mem 0 (items.drop l)

/-- Read `n` items, with the numbers from `start` on. -/
def read (mem : List α) (start n : ℕ) : Option (List α) := do
  let l := min n (mem.length - start % mem.length)
  let first ← load mem (start % mem.length) l
  let second ← load mem 0 (n - l)
  return first ++ second

/-- **The block keeps the items of the sequence from number `lo` on.** -/
structure Window (mem seq : List α) (lo : ℕ) : Prop where
  fits : seq.length ≤ lo + mem.length
  kept : ∀ i, lo ≤ i → i < seq.length → mem[i % mem.length]? = seq[i]?

variable {mem seq items : List α} {start lo n t size : ℕ}

/-- The cell `t` places after that of `start`. -/
theorem add_mod_eq (h : t < size) : (start + t) % size =
    if start % size + t < size then start % size + t else start % size + t - size := by
  have hstart : start % size < size := Nat.mod_lt _ (by omega)
  rw [Nat.add_mod, Nat.mod_eq_of_lt h]
  split
  · next hlt => exact Nat.mod_eq_of_lt hlt
  · rw [Nat.mod_eq_sub_mod (by omega), Nat.mod_eq_of_lt (by omega)]

/-- **What a write does**, for a block that is long enough. -/
theorem write_eq (start : ℕ) (hpos : 0 < mem.length) (h : items.length ≤ mem.length) :
    ∃ mem', write mem start items = some mem' ∧ mem'.length = mem.length ∧
      ∀ t < mem.length, mem'[(start + t) % mem.length]? =
        if t < items.length then items[t]? else mem[(start + t) % mem.length]? := by
  have hoff : start % mem.length < mem.length := Nat.mod_lt _ hpos
  set off := start % mem.length with hoffdef
  set l := min items.length (mem.length - off) with hl
  have hfirst : off + (items.take l).length ≤ mem.length := by
    rw [List.length_take]
    omega
  have hlen := length_overwrite hfirst
  have hsecond : 0 + (items.drop l).length ≤ (overwrite mem off (items.take l)).length := by
    rw [hlen, List.length_drop]
    omega
  refine ⟨overwrite (overwrite mem off (items.take l)) 0 (items.drop l), ?_, ?_, fun t ht => ?_⟩
  · simp only [write, ← hoffdef, ← hl]
    rw [store_of_le hfirst]
    exact store_of_le hsecond
  · rw [length_overwrite hsecond, hlen]
  · rw [getElem?_overwrite hsecond, getElem?_overwrite hfirst, add_mod_eq ht, ← hoffdef]
    simp only [List.length_drop, List.length_take, List.getElem?_drop, Nat.zero_le, true_and,
      Nat.zero_add, Nat.sub_zero]
    by_cases hend : off + t < mem.length
    · -- before the end of the block
      rw [if_pos hend, if_neg (by omega)]
      by_cases hitem : t < items.length
      · rw [if_pos (by omega), if_pos hitem, List.getElem?_take_of_lt (by omega)]
        congr 1
        omega
      · rw [if_neg (by omega), if_neg hitem]
    · -- from the start of the block on
      rw [if_neg hend]
      by_cases hitem : t < items.length
      · rw [if_pos (by omega), if_pos hitem]
        congr 1
        omega
      · rw [if_neg (by omega), if_neg (by omega), if_neg hitem]

/-- **Writing at the end of the sequence** leaves the window where it is. -/
theorem Window.write (h : Window mem seq lo) (hpos : 0 < mem.length) (hlo : lo ≤ seq.length)
    (hroom : seq.length + items.length ≤ lo + mem.length) :
    ∃ mem', write mem seq.length items = some mem' ∧ mem'.length = mem.length ∧
      Window mem' (seq ++ items) lo := by
  have hitems : items.length ≤ mem.length := by omega
  obtain ⟨mem', hwrite, hlen, hcells⟩ := write_eq seq.length hpos hitems
  refine ⟨mem', hwrite, hlen, ⟨by rw [hlen, List.length_append]; omega, fun i hi hlt => ?_⟩⟩
  rw [List.length_append] at hlt
  rw [hlen]
  by_cases hnew : seq.length ≤ i
  · have hcell := hcells (i - seq.length) (by omega)
    rw [Nat.add_sub_cancel' hnew, if_pos (by omega)] at hcell
    rw [hcell, List.getElem?_append_right hnew]
  · -- an item of before is less than one turn behind, and not where the new ones go
    have hcell := hcells (i + mem.length - seq.length) (by omega)
    rw [Nat.add_sub_cancel' (by omega), Nat.add_mod_right, if_neg (by omega)] at hcell
    rw [hcell, h.kept i hi (by omega), List.getElem?_append_left (by omega)]

/-- **Reading from the start of the window.** -/
theorem Window.read (h : Window mem seq lo) (hpos : 0 < mem.length) (hn : lo + n ≤ seq.length) :
    read mem lo n = some ((seq.drop lo).take n) := by
  have hfits := h.fits
  have hoff : lo % mem.length < mem.length := Nat.mod_lt _ hpos
  set off := lo % mem.length with hoffdef
  set l := min n (mem.length - off) with hl
  have hfirst : load mem off l = some ((mem.drop off).take l) := load_of_le (by omega)
  have hsecond : load mem 0 (n - l) = some ((mem.drop 0).take (n - l)) := load_of_le (by omega)
  simp only [Ring.read, ← hoffdef, ← hl]
  rw [hfirst, hsecond]
  refine congrArg some (List.ext_getElem? fun t => ?_)
  have hlen : ((mem.drop off).take l).length = l := by
    rw [List.length_take, List.length_drop]
    omega
  -- cell by cell: the copy is what the window keeps
  by_cases ht : t < n
  · have hkept := h.kept (lo + t) (Nat.le_add_right _ _) (by omega)
    rw [add_mod_eq (by omega), ← hoffdef] at hkept
    rw [List.getElem?_take_of_lt ht, List.getElem?_drop, ← hkept]
    by_cases hend : t < l
    · rw [List.getElem?_append_left (by omega), List.getElem?_take_of_lt hend, List.getElem?_drop,
        if_pos (by omega)]
    · rw [List.getElem?_append_right (by omega), hlen, List.getElem?_take_of_lt (by omega),
        List.drop_zero, if_neg (by omega)]
      congr 1
      omega
  · rw [List.getElem?_eq_none (by
      rw [List.length_append, hlen, List.length_take, List.length_drop]; omega),
      List.getElem?_eq_none (by rw [List.length_take, List.length_drop]; omega)]

/-- What has been read leaves the window. -/
theorem Window.advance (h : Window mem seq lo) (n : ℕ) : Window mem seq (lo + n) :=
  ⟨h.fits.trans (by omega), fun i hi hlt => h.kept i (by omega) hlt⟩

end Ring

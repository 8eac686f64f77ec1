import MToolkit.Utilities.ReadFile

/-!
# Writing lines

`WriteFile` of the class `Filesystem` (`utilities/filesystem.h`) puts each value on a line of its
own. Of strings, `ReadFile` reads back what has been written just when none of them has the end of
a line in it (`MToolkit.Filesystem.ReadFile_WriteFile_iff`). `FileContent` takes from each line what
is before its first colon as a key, and the first line with a key counts; a map that is written with
a colon between the key and the value is read back, whatever the order of its entries, just when no
key has a colon and no key and no value the end of a line (`MToolkit.Filesystem.FileContent_iff`).
-/

namespace MToolkit

open Streams

namespace Filesystem

/-- `WriteFile`, of the strings between two iterators. -/
def WriteFile (disk : Disk) (path : Posix.Path) (values : List (List UInt8)) : Bool × Disk :=
  if disk.writable path then
    (true, { disk with
      content := Function.update disk.content path (some (ended String.lf values)) })
  else (false, disk)

variable {disk : Disk} {path : Posix.Path} {values lines : List (List UInt8)}
  {line str k v : List UInt8}

theorem content_WriteFile (h : disk.writable path = true) (values : List (List UInt8)) :
    (WriteFile disk path values).2.content path = some (ended String.lf values) := by
  rw [WriteFile, if_pos h]
  exact Function.update_self ..

theorem terminated_ended (values : List (List UInt8)) : Terminated (ended String.lf values) := by
  induction values with
  | nil => exact .inl rfl
  | cons value values ih =>
    rw [ended_cons]
    exact terminated_line.mpr ih

/-- What is kept of lines are lines. -/
theorem mem_of_mem_kept {keepEmpty : Bool} (h : line ∈ kept keepEmpty lines) : line ∈ lines := by
  cases keepEmpty with
  | false => exact List.mem_of_mem_filter h
  | true => exact h

theorem mem_kept_of_ne_nil {keepEmpty : Bool} (hline : line ≠ []) (h : line ∈ lines) :
    line ∈ kept keepEmpty lines := by
  cases keepEmpty with
  | false => exact List.mem_filter.mpr ⟨h, decide_eq_true hline⟩
  | true => exact h

/-- **When what has been written is read back**, behind what is in the container: when no value has
the end of a line in it. -/
theorem ReadFile_WriteFile_iff (disk : Disk) (path : Posix.Path) (hw : disk.writable path = true)
    (values container : List (List UInt8)) (keepEmpty : Bool) :
    (∃ fuel n, ReadFile (WriteFile disk path values).2 path container keepEmpty fuel =
      some (container ++ kept keepEmpty values, n)) ↔ ∀ value ∈ values, String.lf ∉ value := by
  have hcontent := content_WriteFile hw values
  constructor
  · rintro ⟨fuel, n, hread⟩ value hvalue hmem
    obtain ⟨lines, hlines⟩ := exists_lines String.lf (ended String.lf values)
    obtain ⟨fuel', hread'⟩ := exists_ReadFile hcontent hlines keepEmpty container
    have hkept := congrArg Prod.fst (ReadFile_unique hread hread')
    rw [(read_eq_iff hlines).mpr (terminated_ended values)] at hkept
    -- a value with an end in it is not empty, so that it would be one of the lines
    have hmem' : value ∈ kept keepEmpty lines := by
      rw [← List.append_cancel_left hkept]
      exact mem_kept_of_ne_nil (List.ne_nil_of_mem hmem) hvalue
    exact hlines.notMem value (mem_of_mem_kept hmem') hmem
  · intro h
    obtain ⟨fuel, hread⟩ := exists_ReadFile hcontent (lines_ended h) keepEmpty container
    rw [(read_eq_iff (lines_ended h)).mpr (terminated_ended values)] at hread
    exact ⟨fuel, _, hread⟩

/-- Two lines, one of them empty. -/
theorem ReadFile_WriteFile_emptyDisk : ∃ fuel n,
    ReadFile (WriteFile emptyDisk ['f'] [[97], []]).2 ['f'] [] false fuel = some ([[97]], n) :=
  (ReadFile_WriteFile_iff emptyDisk ['f'] rfl [[97], []] [] false).mpr (by decide)

/-! ### Keys and values -/

def colon : UInt8 := ':'.toUInt8

/-- The key and the value of a line, if it has a colon. -/
def parse (str : List UInt8) : Option (List UInt8 × List UInt8) :=
  (str.findIdx? (· == colon)).map fun find => (str.take find, str.drop (find + 1))

/-- A line with a key and a value. -/
def keyed (p : List UInt8 × List UInt8) : List UInt8 := p.1 ++ colon :: p.2

/-- **What a line is parsed to**: the key ends at the first colon. -/
theorem parse_eq_some_iff : parse str = some (k, v) ↔ str = keyed (k, v) ∧ colon ∉ k := by
  rw [parse, Option.map_eq_some_iff]
  constructor
  · rintro ⟨i, hi, heq⟩
    obtain ⟨rfl, rfl⟩ := Prod.mk.inj heq
    obtain ⟨hlt, hcolon, hbefore⟩ := List.findIdx?_eq_some_iff_getElem.mp hi
    have hget : str[i] = colon := by simpa using hcolon
    refine ⟨?_, fun hmem => ?_⟩
    · rw [keyed, ← hget, List.getElem_cons_drop, List.take_append_drop]
    · obtain ⟨j, hj, hjcolon⟩ := List.getElem_of_mem hmem
      rw [List.length_take] at hj
      rw [List.getElem_take] at hjcolon
      simpa [hjcolon] using hbefore j (by omega)
  · rintro ⟨rfl, hk⟩
    refine ⟨k.length, ?_, ?_⟩
    · rw [keyed, List.findIdx?_append]
      have hnone : k.findIdx? (· == colon) = none := by
        rw [List.findIdx?_eq_none_iff]
        intro c hc
        exact beq_false_of_ne fun h => hk (h ▸ hc)
      simp [hnone, List.findIdx?_cons]
    · simp [keyed]

/-- **A file is read as a map**: a key finds the value of the first line that has it. -/
theorem foldl_insertLine (lines : List (List UInt8)) :
    (lines.foldl FileContent.insertLine fun _ => none) =
      fun k => (lines.filterMap parse).lookup k := by
  have hstep : ∀ (value : List UInt8 → Option (List UInt8)) (str : List UInt8),
      FileContent.insertLine value str =
        ((parse str).elim value fun p => PartialMap.insert value p.1 p.2) := by
    intro value str
    rw [FileContent.insertLine, parse, colon]
    cases str.findIdx? (· == ':'.toUInt8) <;> rfl
  have hfold : ∀ value : List UInt8 → Option (List UInt8),
      lines.foldl FileContent.insertLine value =
        (lines.filterMap parse).foldl (fun value p => PartialMap.insert value p.1 p.2) value := by
    intro value
    induction lines generalizing value with
    | nil => rfl
    | cons str lines ih =>
      rw [List.foldl_cons, ih, hstep]
      cases hparse : parse str with
      | none => rw [List.filterMap_cons_none hparse, Option.elim_none]
      | some p => rw [List.filterMap_cons_some hparse, Option.elim_some, List.foldl_cons]
  funext k
  rw [hfold, PartialMap.foldl_insert, Option.none_or]

theorem FileContent_loop_unique {fuel fuel' : ℕ} {ifs : IStream UInt8}
    {value r r' : List UInt8 → Option (List UInt8)}
    (h : FileContent.loop fuel ifs str value = some r)
    (h' : FileContent.loop fuel' ifs str value = some r') : r = r' := by
  induction fuel generalizing fuel' ifs str value with
  | zero => exact absurd h (by simp [FileContent.loop])
  | succ fuel ih =>
    rcases fuel' with _ | fuel'
    · exact absurd h' (by simp [FileContent.loop])
    rw [FileContent.loop] at h h'
    dsimp only at h h'
    by_cases hfail : (getline String.lf ifs str).1.fail = true
    · rw [if_pos hfail] at h h'
      exact Option.some_injective _ (h.symm.trans h')
    · rw [if_neg hfail] at h h'
      exact ih h h'

theorem FileContent_unique {fuel fuel' : ℕ} {r r' : List UInt8 → Option (List UInt8)}
    (h : FileContent disk path fuel = some r) (h' : FileContent disk path fuel' = some r') :
    r = r' := by
  rw [FileContent] at h h'
  cases hcontent : disk.content path with
  | none =>
    rw [hcontent] at h h'
    exact Option.some_injective _ (h.symm.trans h')
  | some content =>
    rw [hcontent] at h h'
    exact FileContent_loop_unique h h'

/-- **When a map is read back** that has been written with its entries in any order: when no key has
a colon, and no key and no value the end of a line. -/
theorem FileContent_iff (disk : Disk) (path : Posix.Path) (hw : disk.writable path = true)
    (value : List UInt8 → Option (List UInt8)) (entries : List (List UInt8 × List UInt8))
    (hentries : ∀ k v, (k, v) ∈ entries ↔ value k = some v) :
    (∃ fuel, FileContent (WriteFile disk path (entries.map keyed)).2 path fuel = some value) ↔
      ∀ k v, value k = some v → colon ∉ k ∧ String.lf ∉ k ∧ String.lf ∉ v := by
  have hcontent := content_WriteFile hw (entries.map keyed)
  constructor
  · rintro ⟨fuel, hread⟩ k v hkv
    obtain ⟨lines, hlines⟩ := exists_lines String.lf (ended String.lf (entries.map keyed))
    obtain ⟨fuel', hread'⟩ := exists_FileContent hcontent hlines
    rw [foldl_insertLine] at hread'
    have hlookup : (lines.filterMap parse).lookup k = some v := by
      rw [← hkv, FileContent_unique hread hread']
    -- the entry has been parsed from one of the lines
    obtain ⟨before, after, hsplit, -⟩ := List.lookup_eq_some_iff.mp hlookup
    have hmem : (k, v) ∈ lines.filterMap parse := by
      rw [hsplit]
      exact List.mem_append_right _ List.mem_cons_self
    obtain ⟨str, hstr, hparse⟩ := List.mem_filterMap.mp hmem
    obtain ⟨rfl, hcolon⟩ := parse_eq_some_iff.mp hparse
    have hlf := hlines.notMem _ hstr
    rw [keyed, List.mem_append, List.mem_cons] at hlf
    exact ⟨hcolon, fun h => hlf (.inl h), fun h => hlf (.inr (.inr h))⟩
  · intro h
    have hline : ∀ str ∈ entries.map keyed, String.lf ∉ str := by
      rintro str hstr hmem
      obtain ⟨⟨k, v⟩, hkv, rfl⟩ := List.mem_map.mp hstr
      obtain ⟨-, hk, hv⟩ := h k v ((hentries k v).mp hkv)
      rw [keyed, List.mem_append, List.mem_cons] at hmem
      rcases hmem with hmem | hmem | hmem
      · exact hk hmem
      · exact absurd hmem (by decide)
      · exact hv hmem
    have hparse : (entries.map keyed).filterMap parse = entries := by
      rw [List.filterMap_map]
      refine (List.filterMap_congr fun p hp => ?_).trans List.filterMap_some
      exact parse_eq_some_iff.mpr ⟨rfl, (h p.1 p.2 ((hentries p.1 p.2).mp hp)).1⟩
    obtain ⟨fuel, hread⟩ := exists_FileContent hcontent (lines_ended hline)
    rw [foldl_insertLine, hparse] at hread
    refine ⟨fuel, hread.trans (congrArg some ?_)⟩
    funext k
    cases hk : value k with
    | none =>
      refine List.lookup_eq_none_iff.mpr fun p hp => bne_iff_ne.mpr ?_
      rintro rfl
      rw [(hentries p.1 p.2).mp hp] at hk
      cases hk
    | some v =>
      cases hlookup : entries.lookup k with
      | none =>
        have hne := List.lookup_eq_none_iff.mp hlookup _ ((hentries k v).mpr hk)
        exact absurd rfl (bne_iff_ne.mp hne)
      | some w =>
        obtain ⟨before, after, hsplit, -⟩ := List.lookup_eq_some_iff.mp hlookup
        have hmem : (k, w) ∈ entries := by
          rw [hsplit]
          exact List.mem_append_right _ List.mem_cons_self
        rw [← hk, (hentries k w).mp hmem]

/-- A map with one key is read back from its line. -/
theorem FileContent_emptyDisk : ∃ fuel,
    FileContent (WriteFile emptyDisk ['f'] [[97, 58, 98, 58]]).2 ['f'] fuel =
      some fun k => if k = [97] then some [98, 58] else none := by
  refine (FileContent_iff emptyDisk ['f'] rfl _ [([97], [98, 58])] fun k v => ?_).mpr ?_
  · by_cases hk : k = [97] <;> simp [hk, eq_comm]
  · intro k v hkv
    split_ifs at hkv with hk
    obtain rfl := Option.some.inj hkv
    rw [hk]
    decide

end Filesystem

end MToolkit

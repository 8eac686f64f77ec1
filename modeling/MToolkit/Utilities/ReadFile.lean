import MToolkit.Library.PartialMap
import MToolkit.Library.Posix
import MToolkit.Library.Streams
import MToolkit.Utilities.String

/-!
# Reading the lines of a file

`ReadFile`, `FileContent` and `StoreFile` of the class `Filesystem`
(`utilities/filesystem.cpp`). `FileContent` goes over all lines of a file. `ReadFile` looks at the
stream after each line it reads, and leaves out a last line that has no end: it reads what
`StoreFile` has written just when this is empty or ends with a line
(`MToolkit.Filesystem.ReadFile_lossless_iff`).
-/

namespace MToolkit

open Posix Streams

namespace Filesystem

/-- The files that can be read, with their contents, and the paths that can be written to. -/
structure Disk where
  content : Path → Option (List UInt8)
  writable : Path → Bool

/-- The loop of `ReadFile`, with the string it reads into. -/
def ReadFile.loop (keepEmpty : Bool) :
    ℕ → IStream UInt8 → List UInt8 → List (List UInt8) → Option (List (List UInt8))
  | 0, _, _, _ => none
  | fuel + 1, ifs, str, container =>
    if ifs.eof then some container
    else
      let (ifs, str) := getline String.lf ifs str
      if !ifs.good then some container
      else
        loop keepEmpty fuel ifs str
          (if keepEmpty || !str.isEmpty then container ++ [str] else container)

/-- `ReadFile`, with the container as it is afterwards and what is returned. -/
def ReadFile (disk : Disk) (path : Path) (container : List (List UInt8)) (keepEmpty : Bool)
    (fuel : ℕ) : Option (List (List UInt8) × ℕ) :=
  match disk.content path with
  | some content =>
    (ReadFile.loop keepEmpty fuel (.opened content) [] container).map fun container =>
      (container, container.length)
  | none => some (container, 0)

/-- What `FileContent` does with a line: a colon ends the key. -/
def FileContent.insertLine (value : List UInt8 → Option (List UInt8)) (str : List UInt8) :
    List UInt8 → Option (List UInt8) :=
  match str.findIdx? (· == ':'.toUInt8) with
  | some find => PartialMap.insert value (String.substr str 0 find) (str.drop (find + 1))
  | none => value

/-- The loop of `FileContent`. -/
def FileContent.loop :
    ℕ → IStream UInt8 → List UInt8 → (List UInt8 → Option (List UInt8)) →
      Option (List UInt8 → Option (List UInt8))
  | 0, _, _, _ => none
  | fuel + 1, ifs, str, value =>
    let (ifs, str) := getline String.lf ifs str
    if ifs.fail then some value
    else loop fuel ifs str (insertLine value str)

/-- `FileContent` -/
def FileContent (disk : Disk) (path : Path) (fuel : ℕ) :
    Option (List UInt8 → Option (List UInt8)) :=
  match disk.content path with
  | some content => FileContent.loop fuel (.opened content) [] fun _ => none
  | none => some fun _ => none

/-- `StoreFile`, of the first `len` bytes of the block that `data` points to. -/
def StoreFile (disk : Disk) (path : Path) (data : List UInt8) (len : UInt32) :
    Option (Bool × Disk) :=
  if disk.writable path then
    if len.toNat ≤ data.length then
      some (true, { disk with
        content := Function.update disk.content path (some (data.take len.toNat)) })
    else none
  else some (false, disk)

variable {content line rest str : List UInt8} {lines container : List (List UInt8)}

/-! ### The loops -/

/-- **`FileContent` goes over all lines.** -/
theorem exists_FileContent_loop (h : Lines String.lf content lines) (str : List UInt8)
    (value : List UInt8 → Option (List UInt8)) :
    ∃ fuel, FileContent.loop fuel (.opened content) str value =
      some (lines.foldl FileContent.insertLine value) := by
  induction h generalizing str value with
  | nil =>
    refine ⟨1, ?_⟩
    rw [FileContent.loop, getline_last List.not_mem_nil]
    rfl
  | @last line hline hne =>
    refine ⟨2, ?_⟩
    have hfail : line.isEmpty = false := by simpa using hne
    rw [FileContent.loop, getline_last hline]
    dsimp only
    rw [hfail]
    rfl
  | @line line rest lines hline h ih =>
    obtain ⟨fuel, hloop⟩ := ih line (FileContent.insertLine value line)
    refine ⟨fuel + 1, ?_⟩
    rw [FileContent.loop, getline_line hline]
    exact hloop

/-- The content is empty, or ends with the end of a line. -/
def Terminated (content : List UInt8) : Prop :=
  content = [] ∨ content.getLast? = some String.lf

instance : Decidable (Terminated content) := inferInstanceAs (Decidable (_ ∨ _))

theorem terminated_line : Terminated (line ++ String.lf :: rest) ↔ Terminated rest := by
  rcases rest with _ | ⟨c, rest⟩
  · simp [Terminated]
  · have hlast : (line ++ String.lf :: c :: rest).getLast? = (c :: rest).getLast? := by
      rw [List.getLast?_append, List.getLast?_cons_cons, List.getLast?_cons]
      rfl
    simp [Terminated, hlast]

theorem not_terminated (hline : String.lf ∉ line) (hne : line ≠ []) : ¬Terminated line := by
  rintro (h | h)
  · exact hne h
  · exact hline (List.mem_of_getLast? h)

/-- What `ReadFile` keeps of the lines. -/
def kept (keepEmpty : Bool) (lines : List (List UInt8)) : List (List UInt8) :=
  if keepEmpty then lines else lines.filter (· ≠ [])

theorem append_kept (keepEmpty : Bool) (line : List UInt8) (lines : List (List UInt8)) :
    (if keepEmpty || !line.isEmpty then container ++ [line] else container) ++
      kept keepEmpty lines = container ++ kept keepEmpty (line :: lines) := by
  rcases keepEmpty with _ | _
  · rcases line with _ | ⟨c, line⟩
    · rfl
    · exact List.append_assoc ..
  · exact List.append_assoc ..

/-- The lines that are read: the last one is not, if it has no end. -/
def read (content : List UInt8) (lines : List (List UInt8)) : List (List UInt8) :=
  if Terminated content then lines else lines.dropLast

theorem read_line (h : Lines String.lf rest lines) :
    read (line ++ String.lf :: rest) (line :: lines) = line :: read rest lines := by
  by_cases hrest : Terminated rest
  · rw [read, if_pos (terminated_line.2 hrest), read, if_pos hrest]
  · rw [read, if_neg (terminated_line.not.2 hrest), read, if_neg hrest]
    cases h with
    | nil => exact absurd (Or.inl rfl) hrest
    | last => rfl
    | line => rfl

theorem not_eof (content : List UInt8) : ¬(IStream.opened content).eof = true :=
  Bool.false_ne_true

/-- **`ReadFile` reads the lines that have an end.** -/
theorem exists_ReadFile_loop (h : Lines String.lf content lines) (keepEmpty : Bool)
    (str : List UInt8) (container : List (List UInt8)) :
    ∃ fuel, ReadFile.loop keepEmpty fuel (.opened content) str container =
      some (container ++ kept keepEmpty (read content lines)) := by
  induction h generalizing str container with
  | nil =>
    refine ⟨1, ?_⟩
    rw [ReadFile.loop, if_neg (not_eof _), getline_last List.not_mem_nil]
    have hkept : kept keepEmpty [] = [] := by cases keepEmpty <;> rfl
    rw [read, if_pos (show Terminated [] from Or.inl rfl), hkept, List.append_nil]
    rfl
  | @last line hline hne =>
    refine ⟨1, ?_⟩
    -- the end of the file has been reached, and what has been read is dropped
    rw [ReadFile.loop, if_neg (not_eof _), getline_last hline]
    have hkept : kept keepEmpty [] = [] := by cases keepEmpty <;> rfl
    rw [read, if_neg (not_terminated hline hne)]
    change _ = some (container ++ kept keepEmpty [])
    rw [hkept, List.append_nil]
    rfl
  | @line line rest lines hline h ih =>
    obtain ⟨fuel, hloop⟩ :=
      ih line (if keepEmpty || !line.isEmpty then container ++ [line] else container)
    refine ⟨fuel + 1, ?_⟩
    rw [ReadFile.loop, if_neg (not_eof _), getline_line hline, read_line h, ← append_kept]
    exact hloop

theorem ReadFile_loop_unique {keepEmpty : Bool} {fuel fuel' : ℕ} {ifs : IStream UInt8}
    {r r' : List (List UInt8)} (h : ReadFile.loop keepEmpty fuel ifs str container = some r)
    (h' : ReadFile.loop keepEmpty fuel' ifs str container = some r') : r = r' := by
  induction fuel generalizing fuel' ifs str container with
  | zero => exact absurd h (by simp [ReadFile.loop])
  | succ fuel ih =>
    rcases fuel' with _ | fuel'
    · exact absurd h' (by simp [ReadFile.loop])
    rw [ReadFile.loop] at h h'
    by_cases heof : ifs.eof
    · rw [if_pos heof] at h h'
      exact Option.some_injective _ (h.symm.trans h')
    · rw [if_neg heof] at h h'
      dsimp only at h h'
      by_cases hgood : (!(getline String.lf ifs str).1.good) = true
      · rw [if_pos hgood] at h h'
        exact Option.some_injective _ (h.symm.trans h')
      · rw [if_neg hgood] at h h'
        exact ih h h'

/-! ### What has been stored -/

variable {disk disk' : Disk} {path : Path} {data : List UInt8} {len : UInt32}

theorem content_of_StoreFile (h : StoreFile disk path data len = some (true, disk')) :
    disk'.content path = some (data.take len.toNat) := by
  rw [StoreFile] at h
  split at h
  · split at h
    · obtain ⟨-, rfl⟩ := Prod.mk.injEq .. ▸ Option.some_injective _ h
      exact Function.update_self ..
    · exact absurd h (by simp)
  · exact absurd h (by simp)

/-- **The lines of a file are read**: all by `ReadFile`, or all that are not empty, and
`FileContent` goes over the same. -/
def Reads (disk : Disk) (path : Path) (content : List UInt8) : Prop :=
  ∃ lines, Lines String.lf content lines ∧
    (∀ keepEmpty container, ∃ fuel,
      let result := container ++ if keepEmpty then lines else lines.filter (· ≠ [])
      ReadFile disk path container keepEmpty fuel = some (result, result.length)) ∧
    ∃ fuel, FileContent disk path fuel =
      some (lines.foldl FileContent.insertLine fun _ => none)

theorem exists_FileContent (hcontent : disk.content path = some content)
    (hlines : Lines String.lf content lines) :
    ∃ fuel, FileContent disk path fuel =
      some (lines.foldl FileContent.insertLine fun _ => none) := by
  obtain ⟨fuel, hloop⟩ := exists_FileContent_loop hlines [] fun _ => none
  refine ⟨fuel, ?_⟩
  rw [FileContent, hcontent]
  exact hloop

theorem exists_ReadFile (hcontent : disk.content path = some content)
    (hlines : Lines String.lf content lines) (keepEmpty : Bool)
    (container : List (List UInt8)) :
    ∃ fuel, ReadFile disk path container keepEmpty fuel =
      some (container ++ kept keepEmpty (read content lines),
        (container ++ kept keepEmpty (read content lines)).length) := by
  obtain ⟨fuel, hloop⟩ := exists_ReadFile_loop hlines keepEmpty [] container
  refine ⟨fuel, ?_⟩
  rw [ReadFile, hcontent]
  dsimp only
  rw [hloop]
  rfl

theorem ReadFile_unique {keepEmpty : Bool} {fuel fuel' : ℕ} {r r' : List (List UInt8) × ℕ}
    (h : ReadFile disk path container keepEmpty fuel = some r)
    (h' : ReadFile disk path container keepEmpty fuel' = some r') : r = r' := by
  rw [ReadFile] at h h'
  rcases hcontent : disk.content path with _ | content
  · rw [hcontent] at h h'
    exact Option.some_injective _ (h.symm.trans h')
  · rw [hcontent] at h h'
    obtain ⟨lines, hlines, rfl⟩ := Option.map_eq_some_iff.1 h
    obtain ⟨lines', hlines', rfl⟩ := Option.map_eq_some_iff.1 h'
    rw [ReadFile_loop_unique hlines hlines']

/-- The lines that are read are all lines just where the last one has its end. -/
theorem read_eq_iff (hlines : Lines String.lf content lines) :
    read content lines = lines ↔ Terminated content := by
  by_cases hterm : Terminated content
  · exact iff_of_true (if_pos hterm) hterm
  · refine iff_of_false (fun heq => ?_) hterm
    rw [read, if_neg hterm] at heq
    have hne : lines ≠ [] := by
      rintro rfl
      cases hlines
      exact hterm (Or.inl rfl)
    have hlen := congrArg List.length heq
    rw [List.length_dropLast] at hlen
    have := List.length_pos_of_ne_nil hne
    omega

theorem reads_iff (hcontent : disk.content path = some content) :
    Reads disk path content ↔ Terminated content := by
  constructor
  · rintro ⟨lines, hlines, hread, -⟩
    obtain ⟨fuel, hread⟩ := hread true []
    obtain ⟨fuel', hread'⟩ := exists_ReadFile hcontent hlines true []
    exact (read_eq_iff hlines).1 (congrArg Prod.fst (ReadFile_unique hread' hread))
  · intro hterm
    obtain ⟨lines, hlines⟩ := exists_lines String.lf content
    refine ⟨lines, hlines, fun keepEmpty container => ?_, exists_FileContent hcontent hlines⟩
    obtain ⟨fuel, hread⟩ := exists_ReadFile hcontent hlines keepEmpty container
    rw [(read_eq_iff hlines).2 hterm] at hread
    exact ⟨fuel, hread⟩

/-- **When no line is lost** of what has been stored: when there is nothing, or the last line has
its end. -/
theorem ReadFile_lossless_iff (h : StoreFile disk path data len = some (true, disk')) :
    Reads disk' path (data.take len.toNat) ↔
      data.take len.toNat = [] ∨ (data.take len.toNat).getLast? = some String.lf :=
  reads_iff (content_of_StoreFile h)

/-- A disk with no file yet. -/
def emptyDisk : Disk where
  content _ := none
  writable _ := true

/-- Of `"a\n"` no line is lost. -/
theorem ReadFile_lossless : ∃ disk',
    StoreFile emptyDisk ['f'] [0x61, 0x0A] 2 = some (true, disk') ∧
      Reads disk' ['f'] [0x61, 0x0A] := by
  have hstore : StoreFile emptyDisk ['f'] [0x61, 0x0A] 2 = some (true, _) := rfl
  exact ⟨_, hstore, (ReadFile_lossless_iff hstore).2 (Or.inr rfl)⟩

/-- The line of `"a"` is lost. -/
theorem ReadFile_loses : ∃ disk', StoreFile emptyDisk ['f'] [0x61] 1 = some (true, disk') ∧
    ReadFile disk' ['f'] [] true 1 = some ([], 0) ∧ ¬Reads disk' ['f'] [0x61] := by
  have hstore : StoreFile emptyDisk ['f'] [0x61] 1 = some (true, _) := rfl
  refine ⟨_, hstore, rfl, fun hreads => ?_⟩
  exact not_terminated (by decide) (by decide) ((reads_iff (content_of_StoreFile hstore)).1 hreads)

end Filesystem

end MToolkit

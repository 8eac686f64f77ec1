import Mathlib.Data.List.Basic
import Mathlib.Data.List.TakeWhile
import Mathlib.Tactic

/-!
# Streams that are read line by line

The input stream of a file, with the states of a stream of the standard library, and
`std::getline` on it (`Streams.getline`): it sets `eofbit` when it reaches the end, also where it
has read something, and `failbit` when it extracts nothing. What it should yield one after the
other are the lines of the file (`Streams.Lines`), the last of which need not have an end.
-/

namespace Streams

variable {α : Type} {delim : α} {line rest str content : List α} {lines : List (List α)}

/-! ### Lines -/

/-- **The lines of a content.** Nothing follows the end of the last line. -/
inductive Lines (delim : α) : List α → List (List α) → Prop
  | nil : Lines delim [] []
  /-- The last line has no end. -/
  | last {line : List α} (hline : delim ∉ line) (hne : line ≠ []) : Lines delim line [line]
  | line {line rest : List α} {lines : List (List α)} (hline : delim ∉ line)
      (h : Lines delim rest lines) : Lines delim (line ++ delim :: rest) (line :: lines)

theorem mem_line_end (delim : α) (line rest : List α) : delim ∈ line ++ delim :: rest :=
  List.mem_append_right line List.mem_cons_self

/-- A line ends at the first end. -/
theorem append_cons_unique {line' rest' : List α} (hline : delim ∉ line) (hline' : delim ∉ line')
    (h : line ++ delim :: rest = line' ++ delim :: rest') : line = line' ∧ rest = rest' := by
  induction line generalizing line' with
  | nil =>
    rcases line' with _ | ⟨c, line'⟩
    · exact ⟨rfl, List.tail_eq_of_cons_eq h⟩
    · exact absurd List.mem_cons_self ((List.head_eq_of_cons_eq h) ▸ hline')
  | cons b line ih =>
    rcases line' with _ | ⟨c, line'⟩
    · exact absurd List.mem_cons_self ((List.head_eq_of_cons_eq h).symm ▸ hline)
    · obtain ⟨rfl, hrest⟩ := ih (fun hmem => hline (List.mem_cons_of_mem _ hmem))
        (fun hmem => hline' (List.mem_cons_of_mem _ hmem)) (List.tail_eq_of_cons_eq h)
      exact ⟨by rw [List.head_eq_of_cons_eq h], hrest⟩

theorem exists_lines (delim : α) (content : List α) : ∃ lines, Lines delim content lines := by
  induction hn : content.length using Nat.strong_induction_on generalizing content with
  | _ n ih => ?_
  subst hn
  by_cases hmem : delim ∈ content
  · obtain ⟨line, rest, rfl, hline⟩ := List.eq_append_cons_of_mem hmem
    have hshort : rest.length < (line ++ delim :: rest).length := by
      simp only [List.length_append, List.length_cons]
      omega
    obtain ⟨lines, hlines⟩ := ih rest.length hshort rest rfl
    exact ⟨line :: lines, .line hline hlines⟩
  · rcases eq_or_ne content [] with rfl | hne
    · exact ⟨[], .nil⟩
    · exact ⟨[content], .last hmem hne⟩

theorem Lines.notMem (h : Lines delim content lines) : ∀ line ∈ lines, delim ∉ line := by
  induction h with
  | nil => exact nofun
  | last hline => exact List.forall_mem_singleton.mpr hline
  | line hline _ ih => exact List.forall_mem_cons.mpr ⟨hline, ih⟩

/-- Each of the values with an end behind it. -/
def ended (delim : α) (values : List (List α)) : List α := values.flatMap (· ++ [delim])

theorem ended_cons (delim : α) (value : List α) (values : List (List α)) :
    ended delim (value :: values) = value ++ delim :: ended delim values :=
  List.append_assoc ..

/-- Values with no end in them are lines. -/
theorem lines_ended {values : List (List α)} (h : ∀ value ∈ values, delim ∉ value) :
    Lines delim (ended delim values) values := by
  induction values with
  | nil => exact .nil
  | cons value values ih =>
    rw [List.forall_mem_cons] at h
    rw [ended_cons]
    exact .line h.1 (ih h.2)

/-! ### Streams -/

/-- An input stream: what is left of it, `eofbit` and `failbit`. -/
structure IStream (α : Type) where
  rest : List α
  eof : Bool
  fail : Bool

/-- Neither bit is set. -/
def IStream.good (s : IStream α) : Bool := !s.eof && !s.fail

/-- A stream of which the lines can be read. -/
def IStream.opened (content : List α) : IStream α where
  rest := content
  eof := false
  fail := false

section GetLine

variable [DecidableEq α]

/-- `std::getline`, with what is in the string afterwards. -/
def getline (delim : α) (s : IStream α) (str : List α) : IStream α × List α :=
  if s.good then
    let line := s.rest.takeWhile (· ≠ delim)
    match s.rest.dropWhile (· ≠ delim) with
    | [] => ({ rest := [], eof := true, fail := line.isEmpty }, line)
    | _ :: rest => ({ s with rest := rest }, line)
  else ({ s with fail := true }, str)

/-- A line with its end is read. -/
theorem getline_line (hline : delim ∉ line) :
    getline delim (.opened (line ++ delim :: rest)) str = (.opened rest, line) := by
  have hall : ∀ c ∈ line, decide (c ≠ delim) = true :=
    fun c hc => decide_eq_true fun hcd => hline (hcd ▸ hc)
  rw [getline, IStream.opened, List.takeWhile_append_of_pos hall, List.dropWhile_append_of_pos hall]
  simp [IStream.good, IStream.opened]

/-- What is left is read, without an end. -/
theorem getline_last (hline : delim ∉ line) :
    getline delim (.opened line) str =
      ({ rest := [], eof := true, fail := line.isEmpty }, line) := by
  have hall : ∀ c ∈ line, decide (c ≠ delim) = true :=
    fun c hc => decide_eq_true fun hcd => hline (hcd ▸ hc)
  have htake : line.takeWhile (· ≠ delim) = line := List.takeWhile_eq_self_iff.2 hall
  have hdrop : line.dropWhile (· ≠ delim) = [] := List.dropWhile_eq_nil_iff.2 hall
  rw [getline, IStream.opened]
  dsimp only
  rw [htake, hdrop]
  rfl

end GetLine

end Streams

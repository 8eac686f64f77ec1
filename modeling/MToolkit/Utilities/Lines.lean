import MToolkit.Utilities.String

/-!
# Lines and chunks of a string

`SplitLines` cuts a string behind the ends of its lines, of which there are four
(`MToolkit.String.Ending`): no byte is lost, and what the elements are without their ends is what
it appends when the ends are not kept (`MToolkit.String.SplitLines_lossless`).

`SplitString` cuts a string into chunks of one length. It ends, with the chunks, just when this
length is not zero or there is nothing to cut (`MToolkit.String.SplitString_chunks_iff`).
-/

namespace MToolkit

namespace String

open Pieces

variable {value pre body rest tail : List UInt8} {container : List (List UInt8)}

/-! ### The inner loop -/

/-- A byte ends a line. -/
def isTerminator (c : UInt8) : Bool := c == cr || c == lf || c == nul

theorem isTerminator_eq_false {c : UInt8} :
    isTerminator c = false ↔ c ≠ cr ∧ c ≠ lf ∧ c ≠ nul := by
  simp [isTerminator, and_assoc]

/-- The inner loop goes to the end of a line, or of the string. -/
theorem skip_eq (hbody : ∀ c ∈ body, isTerminator c = false)
    (htail : ∀ c ∈ tail.head?, isTerminator c = true) {fuel : ℕ} (hfuel : body.length < fuel) :
    SplitLines.skip (pre ++ body ++ tail) fuel pre.length = some (pre ++ body).length := by
  induction body generalizing pre fuel with
  | nil =>
    obtain ⟨fuel, rfl⟩ := Nat.exists_eq_succ_of_ne_zero hfuel.ne_bot
    rw [List.append_nil, SplitLines.skip, getElem?_append_length]
    rcases tail with _ | ⟨c, tail⟩
    · rfl
    · have hc : ¬(c ≠ cr ∧ c ≠ lf ∧ c ≠ nul) := by
        rw [← isTerminator_eq_false, htail c rfl]
        exact Bool.noConfusion
      exact if_neg hc
  | cons b body ih =>
    obtain ⟨fuel, rfl⟩ := Nat.exists_eq_succ_of_ne_zero hfuel.ne_bot
    obtain ⟨hb, hbody⟩ := List.forall_mem_cons.1 hbody
    have hnext : pre.length + 1 = (pre ++ [b]).length := by rw [List.length_append]; rfl
    rw [List.append_assoc, SplitLines.skip, getElem?_append_length]
    change (if _ then _ else _) = _
    rw [if_pos (isTerminator_eq_false.1 hb), List.append_cons pre b, hnext, ← List.append_assoc,
      List.append_cons pre b]
    exact ih hbody (Nat.lt_of_succ_lt_succ hfuel)

/-! ### The lines -/

/-- What ends a line. -/
def Ending : List (List UInt8) := [[cr, lf], [cr], [lf], [nul]]

/-- **The lines of a string**, each with what ends it. -/
structure Lines (value : List UInt8) (lines : List (List UInt8 × List UInt8)) : Prop where
  /-- No byte is lost. -/
  lossless : (lines.map fun line => line.1 ++ line.2).flatten = value
  body : ∀ line ∈ lines, ∀ c ∈ line.1, isTerminator c = false
  /-- Every line has one end, but for the last one, which is not empty if it has none. -/
  ending : ∀ line ∈ lines.dropLast, line.2 ∈ Ending
  last : ∀ line ∈ lines.getLast?, line.2 ∈ Ending ∨ line.2 = [] ∧ line.1 ≠ []
  /-- The two bytes that are one end are not taken apart. -/
  whole : lines.IsChain fun line next => line.2 = [cr] → (next.1 ++ next.2).head? ≠ some lf

theorem lines_nil : Lines [] [] where
  lossless := rfl
  body _ hline := absurd hline List.not_mem_nil
  ending _ hline := absurd hline List.not_mem_nil
  last _ hline := by simp at hline
  whole := List.isChain_nil

theorem lines_last (hbody : ∀ c ∈ body, isTerminator c = false) (hne : body ≠ []) :
    Lines body [(body, [])] where
  lossless := by simp
  body line hline := by
    rw [List.mem_singleton.1 hline]
    exact hbody
  ending _ hline := absurd hline List.not_mem_nil
  last line hline := by
    obtain rfl : (body, []) = line := Option.some_injective _ hline
    exact Or.inr ⟨rfl, hne⟩
  whole := List.isChain_singleton _

theorem Lines.cons {ending : List UInt8} {lines : List (List UInt8 × List UInt8)}
    (h : Lines rest lines) (hbody : ∀ c ∈ body, isTerminator c = false) (hending : ending ∈ Ending)
    (hwhole : ending = [cr] → rest.head? ≠ some lf) :
    Lines (body ++ ending ++ rest) ((body, ending) :: lines) where
  lossless := by rw [List.map_cons, List.flatten_cons, h.lossless]
  body := List.forall_mem_cons.2 ⟨hbody, h.body⟩
  ending line hline := by
    rcases lines with _ | ⟨next, lines⟩
    · exact absurd hline List.not_mem_nil
    · rcases List.mem_cons.1 hline with rfl | hline
      · exact hending
      · exact h.ending line hline
  last line hline := by
    rcases lines with _ | ⟨next, lines⟩
    · obtain rfl : (body, ending) = line := Option.some_injective _ hline
      exact Or.inl hending
    · exact h.last line (by rwa [List.getLast?_cons_cons] at hline)
  whole := by
    rcases lines with _ | ⟨next, lines⟩
    · exact List.isChain_singleton _
    · refine List.isChain_cons_cons.2 ⟨fun hcr => ?_, h.whole⟩
      intro hhead
      refine hwhole hcr ?_
      rw [← h.lossless, List.map_cons, List.flatten_cons, List.head?_append, hhead]
      rfl

/-! ### The outer loop -/

/-- What is appended for a line. -/
def kept (keepEnter : Bool) (line : List UInt8 × List UInt8) : List UInt8 :=
  if keepEnter then line.1 ++ line.2 else line.1

theorem substr_append (pre body rest : List UInt8) :
    substr (pre ++ body ++ rest) pre.length ((pre ++ body).length - pre.length) = body := by
  rw [substr, List.append_assoc, List.drop_left, List.length_append, Nat.add_sub_cancel_left,
    List.take_left]

/-- The last line, without an end. -/
theorem loop_last {keepEnter : Bool} {fuel : ℕ} (hbody : ∀ c ∈ body, isTerminator c = false)
    (hne : body ≠ []) (hfuel : body.length < fuel) :
    SplitLines.loop (pre ++ body) keepEnter (fuel + 1) pre.length pre.length container =
      SplitLines.loop (pre ++ body) keepEnter fuel (pre ++ body).length (pre ++ body).length
        (container ++ [kept keepEnter (body, [])]) := by
  have hlt : pre.length < (pre ++ body).length := by
    rw [List.length_append]
    exact Nat.lt_add_of_pos_right (List.length_pos_of_ne_nil hne)
  have hskip : SplitLines.skip (pre ++ body ++ []) fuel pre.length = some (pre ++ body).length :=
    skip_eq hbody (by simp) hfuel
  have hsubstr := substr_append pre body []
  rw [List.append_nil] at hskip hsubstr
  rw [SplitLines.loop, if_pos hlt, hskip]
  dsimp only
  rw [if_neg (lt_irrefl _), if_neg (fun h => lt_irrefl _ h.1), hsubstr]
  congr 3
  rw [kept, List.append_nil, ite_self]

/-- How far the index goes over the end of a line. -/
theorem length_ending {ending : List UInt8} (hending : ending ∈ Ending)
    (hwhole : ending = [cr] → rest.head? ≠ some lf) :
    (if (ending ++ rest).head? = some cr ∧ 1 < (ending ++ rest).length ∧
      (ending ++ rest).tail.head? = some lf then 2 else 1) = ending.length := by
  simp only [Ending, List.mem_cons, List.not_mem_nil, or_false] at hending
  rcases hending with rfl | rfl | rfl | rfl
  · exact if_pos ⟨rfl, by simp, rfl⟩
  · exact if_neg fun h => hwhole rfl h.2.2
  · exact if_neg fun h => absurd (Option.some_injective _ h.1) (by decide)
  · exact if_neg fun h => absurd (Option.some_injective _ h.1) (by decide)

/-- An end begins with a terminator. -/
theorem isTerminator_head {ending : List UInt8} (hending : ending ∈ Ending) :
    ∀ c ∈ (ending ++ rest).head?, isTerminator c = true := by
  simp only [Ending, List.mem_cons, List.not_mem_nil, or_false] at hending
  rcases hending with rfl | rfl | rfl | rfl <;>
    · intro c hc
      rw [← Option.some_injective _ hc]
      decide

/-- The index goes over the end of a line, wherever the line is. -/
theorem step_ending {ending : List UInt8} (hending : ending ∈ Ending)
    (hwhole : ending = [cr] → rest.head? ≠ some lf) (front : List UInt8) :
    (if (front ++ (ending ++ rest))[front.length]? = some cr ∧
      front.length + 1 < (front ++ (ending ++ rest)).length ∧
        (front ++ (ending ++ rest))[front.length + 1]? = some lf then 2 else 1) =
      ending.length := by
  have hlen : (front ++ (ending ++ rest)).length = front.length + (ending ++ rest).length :=
    List.length_append
  simp only [getElem?_append_length, getElem?_append_length_succ, hlen, Nat.add_lt_add_iff_left]
  exact length_ending hending hwhole

/-- What is appended is the line, with its end or without. -/
theorem substr_kept (keepEnter : Bool) (ending : List UInt8) :
    substr (pre ++ body ++ (ending ++ rest)) pre.length
      ((if keepEnter then (pre ++ (body ++ ending)).length else (pre ++ body).length) -
        pre.length) = kept keepEnter (body, ending) := by
  rcases keepEnter with _ | _
  · exact substr_append pre body (ending ++ rest)
  · have hsubstr := substr_append pre (body ++ ending) rest
    rwa [show pre ++ (body ++ ending) ++ rest = pre ++ body ++ (ending ++ rest) by
      simp only [List.append_assoc]] at hsubstr

/-- A line with its end. -/
theorem loop_line {keepEnter : Bool} {fuel : ℕ} {ending : List UInt8}
    (hbody : ∀ c ∈ body, isTerminator c = false) (hending : ending ∈ Ending)
    (hwhole : ending = [cr] → rest.head? ≠ some lf) (hfuel : body.length < fuel) :
    SplitLines.loop (pre ++ (body ++ ending ++ rest)) keepEnter (fuel + 1) pre.length pre.length
        container =
      SplitLines.loop (pre ++ (body ++ ending ++ rest)) keepEnter fuel
        (pre ++ (body ++ ending)).length (pre ++ (body ++ ending)).length
        (container ++ [kept keepEnter (body, ending)]) := by
  have hpos : 0 < ending.length := by
    rw [← length_ending hending hwhole]
    split <;> decide
  have hvalue : pre ++ (body ++ ending ++ rest) = pre ++ body ++ (ending ++ rest) := by
    simp only [List.append_assoc]
  have hlt : (pre ++ body).length < (pre ++ body ++ (ending ++ rest)).length := by
    simp only [List.length_append]
    omega
  have hle : pre.length < (pre ++ body ++ (ending ++ rest)).length := by
    simp only [List.length_append] at hlt ⊢
    omega
  have hnext : (pre ++ body).length + ending.length = (pre ++ (body ++ ending)).length := by
    rw [← List.length_append, List.append_assoc]
  rw [hvalue, SplitLines.loop, if_pos hle, skip_eq hbody (isTerminator_head hending) hfuel]
  dsimp only
  simp only [hlt, true_and, if_true]
  rw [step_ending hending hwhole, hnext, substr_kept]

/-- A string begins with a line that has an end, if there is an end in it. -/
theorem exists_line (h : ¬∀ c ∈ value, isTerminator c = false) :
    ∃ body ending rest, value = body ++ ending ++ rest ∧ (∀ c ∈ body, isTerminator c = false) ∧
      ending ∈ Ending ∧ (ending = [cr] → rest.head? ≠ some lf) := by
  set body := value.takeWhile fun c => !isTerminator c
  have hbody : ∀ c ∈ body, isTerminator c = false := by
    intro c hc
    simpa using List.mem_takeWhile_imp hc
  have hdrop : (value.dropWhile fun c => !isTerminator c) ≠ [] := by
    intro hnil
    refine h fun c hc => ?_
    simpa using List.dropWhile_eq_nil_iff.1 hnil c hc
  have hsplit : value = body ++ value.dropWhile fun c => !isTerminator c :=
    List.takeWhile_append_dropWhile.symm
  have hhead := List.head_dropWhile_not (fun c => !isTerminator c) hdrop
  obtain ⟨c, tail, htail⟩ := List.exists_cons_of_ne_nil hdrop
  rw [htail] at hsplit
  have hcons : (value.dropWhile fun c => !isTerminator c).head? = some c := by
    rw [htail]
    rfl
  have hc : c = cr ∨ c = lf ∨ c = nul := by
    rw [List.head_of_head?_eq_some hcons, Bool.not_eq_false'] at hhead
    simpa [isTerminator, or_assoc] using hhead
  by_cases hwhole : c = cr ∧ tail.head? = some lf
  · -- two bytes that are one end
    obtain ⟨rfl, htail'⟩ := hwhole
    obtain ⟨rest, rfl⟩ := List.head?_eq_some_iff.1 htail'
    exact ⟨body, [cr, lf], rest, by simpa using hsplit, hbody, by simp [Ending], by simp⟩
  · refine ⟨body, [c], tail, by simpa using hsplit, hbody, ?_, fun hcr hlf => ?_⟩
    · rcases hc with rfl | rfl | rfl <;> simp [Ending]
    · exact hwhole ⟨List.head_eq_of_cons_eq hcr, hlf⟩

/-- **The outer loop goes along the lines.** -/
theorem exists_lines (rest : List UInt8) : ∃ lines, Lines rest lines ∧
    ∀ {pre container keepEnter fuel}, rest.length + 2 ≤ fuel →
      SplitLines.loop (pre ++ rest) keepEnter fuel pre.length pre.length container =
        some (container ++ lines.map (kept keepEnter)) := by
  induction hn : rest.length using Nat.strong_induction_on generalizing rest with
  | _ n ih => ?_
  subst hn
  have hstop : ∀ {pre container keepEnter fuel}, 0 < fuel →
      SplitLines.loop pre keepEnter fuel pre.length pre.length container = some container := by
    intro pre container keepEnter fuel hfuel
    obtain ⟨fuel, rfl⟩ := Nat.exists_eq_succ_of_ne_zero hfuel.ne'
    rw [SplitLines.loop, if_neg (lt_irrefl _)]
  by_cases hall : ∀ c ∈ rest, isTerminator c = false
  · by_cases hnil : rest = []
    · subst hnil
      refine ⟨[], lines_nil, fun hfuel => ?_⟩
      rw [List.append_nil, hstop (by omega), List.map_nil, List.append_nil]
    · refine ⟨[(rest, [])], lines_last hall hnil, fun {pre container keepEnter fuel} hfuel => ?_⟩
      obtain ⟨fuel, rfl⟩ : ∃ k, fuel = k + 1 := ⟨fuel - 1, by omega⟩
      rw [loop_last hall hnil (by omega), hstop (by omega)]
      rfl
  · obtain ⟨body, ending, rest, rfl, hbody, hending, hwhole⟩ := exists_line hall
    have hpos : 0 < ending.length := by
      rw [← length_ending hending hwhole]
      split <;> decide
    have hlen : (body ++ ending ++ rest).length = body.length + ending.length + rest.length := by
      rw [List.length_append, List.length_append]
    obtain ⟨lines, hlines, hloop⟩ := ih rest.length (by omega) rest rfl
    refine ⟨_, hlines.cons hbody hending hwhole, fun {pre container keepEnter fuel} hfuel => ?_⟩
    obtain ⟨fuel, rfl⟩ : ∃ k, fuel = k + 1 := ⟨fuel - 1, by omega⟩
    rw [loop_line hbody hending hwhole (by omega), ← List.append_assoc, hloop (by omega),
      List.append_assoc]
    rfl

/-- **`SplitLines` loses nothing**: with their ends the elements are the lines of the string, and
without their ends they are these lines without them. -/
theorem SplitLines_lossless (value : List UInt8) : ∃ fuel lines, Lines value lines ∧
    SplitLinesList value true fuel = some (lines.map fun line => line.1 ++ line.2) ∧
    SplitLinesList value false fuel = some (lines.map Prod.fst) := by
  obtain ⟨lines, hlines, hloop⟩ := exists_lines value
  have hrun : ∀ keepEnter, SplitLinesList value keepEnter (value.length + 2) =
      some (lines.map (kept keepEnter)) := by
    intro keepEnter
    have hloop' : SplitLines.loop ([] ++ value) keepEnter (value.length + 2) 0 0 [] =
        some ([] ++ lines.map (kept keepEnter)) := hloop le_rfl
    rw [List.nil_append, List.nil_append] at hloop'
    rw [SplitLinesList, SplitLines, hloop']
    rfl
  exact ⟨_, lines, hlines, hrun true, hrun false⟩

/-! ### Chunks -/

/-- **The chunks of a string**: all have the length but for the last, which is not empty and not
longer. -/
structure Chunks (str : List UInt8) (n : ℕ) (chunks : List (List UInt8)) : Prop where
  lossless : chunks.flatten = str
  full : ∀ chunk ∈ chunks.dropLast, chunk.length = n
  last : ∀ chunk ∈ chunks.getLast?, chunk ≠ [] ∧ chunk.length ≤ n

variable {n : ℕ} {str : Text} {chunkSize i : UInt64}

theorem chunks_nil : Chunks [] n [] where
  lossless := rfl
  full _ hchunk := absurd hchunk List.not_mem_nil
  last _ hchunk := by simp at hchunk

theorem Chunks.eq_nil {chunks : List (List UInt8)} (h : Chunks [] n chunks) : chunks = [] := by
  by_contra hne
  obtain ⟨hlast, -⟩ := h.last _ (List.getLast?_eq_some_getLast hne)
  exact hlast (List.flatten_eq_nil_iff.1 h.lossless _ (List.getLast_mem hne))

/-- A chunk before the others is full, or the last one. -/
theorem Chunks.cons {chunks : List (List UInt8)} (hn : 0 < n) (hvalue : value ≠ [])
    (h : Chunks (value.drop n) n chunks) : Chunks value n (value.take n :: chunks) where
  lossless := by rw [List.flatten_cons, h.lossless, List.take_append_drop]
  full chunk hchunk := by
    rcases chunks with _ | ⟨next, chunks⟩
    · exact absurd hchunk List.not_mem_nil
    · rcases List.mem_cons.1 hchunk with rfl | hchunk
      · rw [List.length_take]
        refine min_eq_left (Nat.le_of_lt ?_)
        by_contra hle
        rw [List.drop_eq_nil_of_le (Nat.le_of_not_lt hle)] at h
        exact List.cons_ne_nil _ _ h.eq_nil
      · exact h.full chunk hchunk
  last chunk hchunk := by
    rcases chunks with _ | ⟨next, chunks⟩
    · obtain rfl := Option.some_injective _ hchunk
      refine ⟨?_, List.length_take_le ..⟩
      simp [hvalue, hn.ne']
    · exact h.last chunk (by rwa [List.getLast?_cons_cons] at hchunk)

/-! ### The index -/

/-- The index gets here. -/
inductive Reached (str : Text) (chunkSize : UInt64) : UInt64 → Prop
  | zero : Reached str chunkSize 0
  | next {i : UInt64} (hi : Reached str chunkSize i) (hlt : i < str.chars.length.toUInt64) :
      Reached str chunkSize (i + chunkSize)

theorem lt_length_iff : i < str.chars.length.toUInt64 ↔ i.toNat < str.chars.length := by
  have hlen : str.chars.length.toUInt64.toNat = str.chars.length :=
    UInt64.toNat_ofNat_of_lt (str.length_lt.trans (by norm_num))
  rw [UInt64.lt_iff_toNat_lt, hlen]

/-- Where the index is zero or not below the length of a chunk, it can be increased. -/
theorem add_lt (hi : i = 0 ∨ chunkSize.toNat ≤ i.toNat) (hlt : i < str.chars.length.toUInt64) :
    i.toNat + chunkSize.toNat < 2 ^ 64 := by
  have hlen := str.length_lt
  have hsize := chunkSize.toNat_lt
  rw [lt_length_iff] at hlt
  rcases hi with rfl | hi
  · rwa [UInt64.toNat_zero, Nat.zero_add]
  · omega

theorem toNat_add_chunkSize (h : i.toNat + chunkSize.toNat < 2 ^ 64) :
    (i + chunkSize).toNat = i.toNat + chunkSize.toNat := by
  rw [UInt64.toNat_add, Nat.mod_eq_of_lt h]

/-- **The index does not wrap around.** -/
theorem Reached.zero_or_le (h : Reached str chunkSize i) :
    i = 0 ∨ chunkSize.toNat ≤ i.toNat := by
  induction h with
  | zero => exact Or.inl rfl
  | next _ hlt ih =>
    rw [toNat_add_chunkSize (add_lt ih hlt)]
    exact Or.inr (Nat.le_add_left _ _)

/-- **The loop cuts what is left** from the index on. -/
theorem exists_chunks (str : Text) (hsize : chunkSize ≠ 0)
    (hi : i = 0 ∨ chunkSize.toNat ≤ i.toNat) :
    ∃ fuel chunks, Chunks (str.chars.drop i.toNat) chunkSize.toNat chunks ∧
      ∀ result, SplitString.loop str chunkSize fuel i result = some (result ++ chunks) := by
  have hpos : 0 < chunkSize.toNat := Nat.pos_of_ne_zero fun h => hsize (UInt64.toNat_inj.1 h)
  induction hn : str.chars.length - i.toNat using Nat.strong_induction_on generalizing i with
  | _ n ih => ?_
  subst hn
  by_cases hlt : i < str.chars.length.toUInt64
  · have hnext := toNat_add_chunkSize (add_lt hi hlt)
    have hlt' := lt_length_iff.1 hlt
    obtain ⟨fuel, chunks, hchunks, hloop⟩ :=
      ih (str.chars.length - (i + chunkSize).toNat) (by omega) (Or.inr (by omega)) rfl
    rw [hnext, ← List.drop_drop] at hchunks
    refine ⟨fuel + 1, _, hchunks.cons hpos ?_, fun result => ?_⟩
    · exact List.ne_nil_of_length_pos (by rw [List.length_drop]; omega)
    · rw [SplitString.loop, if_pos hlt, hloop, List.append_assoc]
      rfl
  · rw [lt_length_iff, Nat.not_lt] at hlt
    refine ⟨1, [], ?_, fun result => ?_⟩
    · rw [List.drop_eq_nil_of_le hlt]
      exact chunks_nil
    · rw [SplitString.loop, if_neg (fun h => Nat.not_lt.2 hlt (lt_length_iff.1 h)), List.append_nil]

/-- Where the chunks have no length, the loop goes on for ever, if there is anything to cut. -/
theorem loop_zero (hne : str.chars ≠ []) (fuel : ℕ) (result : List (List UInt8)) :
    SplitString.loop str 0 fuel 0 result = none := by
  induction fuel generalizing result with
  | zero => rfl
  | succ fuel ih =>
    have hlt : 0 < str.chars.length.toUInt64 := by
      rw [lt_length_iff]
      exact List.length_pos_of_ne_nil hne
    rw [SplitString.loop, if_pos hlt, UInt64.add_zero]
    exact ih _

/-- **`SplitString` ends** with the chunks of the string, and its index does not wrap around. -/
structure Cuts (str : Text) (chunkSize : UInt64) : Prop where
  ends : ∃ fuel chunks, SplitString str chunkSize fuel = some chunks ∧
    Chunks str.chars chunkSize.toNat chunks
  no_wrap : ∀ i, Reached str chunkSize i → i < str.chars.length.toUInt64 →
    i.toNat + chunkSize.toNat < 2 ^ 64

/-- **When `SplitString` cuts a string into chunks.** For chunks of no length it does not end. -/
theorem SplitString_chunks_iff (str : Text) (chunkSize : UInt64) :
    Cuts str chunkSize ↔ chunkSize ≠ 0 ∨ str.chars = [] := by
  constructor
  · rintro ⟨⟨fuel, chunks, hchunks, -⟩, -⟩
    by_contra hno
    obtain ⟨hzero, hne⟩ := not_or.1 hno
    rw [not_not.1 hzero, SplitString, loop_zero hne] at hchunks
    exact absurd hchunks (by simp)
  · intro h
    refine ⟨?_, fun i hi hlt => add_lt hi.zero_or_le hlt⟩
    by_cases hsize : chunkSize = 0
    · have hnil : str.chars = [] := h.resolve_left (not_not.2 hsize)
      refine ⟨1, [], ?_, hnil ▸ chunks_nil⟩
      rw [SplitString, SplitString.loop, hnil]
      rfl
    · obtain ⟨fuel, chunks, hchunks, hloop⟩ := exists_chunks str hsize (Or.inl rfl)
      exact ⟨fuel, chunks, hloop [], hchunks⟩

/-- The string `"a"` is never cut into chunks of no length. -/
theorem SplitString_endless : ¬Cuts ⟨[0x61], by decide⟩ 0 := by
  rintro ⟨⟨fuel, chunks, hchunks, -⟩, -⟩
  rw [SplitString, loop_zero (by decide)] at hchunks
  exact absurd hchunks (by simp)

end String

end MToolkit

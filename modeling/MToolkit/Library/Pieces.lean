import Mathlib.Data.List.DropRight
import Mathlib.Data.List.Infix
import Mathlib.Tactic

/-!
# Pieces of a word

A word is cut where a key occurs in it, from the left, and the occurrences do not overlap
(`Pieces.Cut`). There is one way to do so, for a key that is not empty
(`Pieces.Cut.unique`, `Pieces.exists_cut`), and with the key between them the pieces make up
the word again (`Pieces.Cut.intercalate`). The first occurrence is what a search finds
(`Pieces.search`). A word is stripped by leaving out what its letters at both ends are
(`Pieces.strip`).
-/

namespace Pieces

variable {α : Type}

/-! ### Letters behind a prefix -/

theorem getElem?_append_length (pre rest : List α) : (pre ++ rest)[pre.length]? = rest.head? := by
  rw [List.getElem?_append_right le_rfl, Nat.sub_self, List.head?_eq_getElem?]

theorem getElem?_append_length_succ (pre rest : List α) :
    (pre ++ rest)[pre.length + 1]? = rest.tail.head? := by
  rw [List.getElem?_append_right (Nat.le_add_right _ 1), Nat.add_sub_cancel_left,
    List.head?_eq_getElem?, List.getElem?_tail]

/-! ### The first occurrence -/

/-- **The first occurrence** of the key, between what comes before it and what comes behind it. -/
def First (key value front rest : List α) : Prop :=
  value = front ++ key ++ rest ∧
    ∀ front' rest', value = front' ++ key ++ rest' → front.length ≤ front'.length

theorem First.unique {key value front rest front' rest' : List α}
    (h : First key value front rest) (h' : First key value front' rest') :
    front = front' ∧ rest = rest' := by
  have hlen : front.length = front'.length :=
    le_antisymm (h.2 _ _ h'.1) (h'.2 _ _ h.1)
  have heq : front ++ (key ++ rest) = front' ++ (key ++ rest') := by
    rw [← List.append_assoc, ← List.append_assoc, ← h.1, ← h'.1]
  obtain ⟨hfront, hrest⟩ := List.append_inj heq hlen
  exact ⟨hfront, List.append_cancel_left hrest⟩

theorem First.occurring {key value front rest : List α} (h : First key value front rest) :
    key <:+: value :=
  ⟨front, rest, h.1.symm⟩

section Search

variable [DecidableEq α] {key value : List α}

/-- Where the key occurs first, or the length of the word. -/
def search (key : List α) : List α → ℕ
  | [] => 0
  | x :: value => if key <+: x :: value then 0 else search key value + 1

theorem search_le (key value : List α) : search key value ≤ value.length := by
  induction value with
  | nil => exact le_rfl
  | cons x value ih =>
    rw [search]
    split
    · exact Nat.zero_le _
    · exact Nat.succ_le_succ ih

/-- The key does not occur before the place that is found. -/
theorem search_le_length {front rest : List α} (hkey : key ≠ [])
    (h : value = front ++ key ++ rest) : search key value ≤ front.length := by
  induction front generalizing value with
  | nil =>
    obtain ⟨k, key', rfl⟩ := List.exists_cons_of_ne_nil hkey
    have hprefix : k :: key' <+: value := ⟨rest, h.symm⟩
    rw [List.nil_append, List.cons_append] at h
    rw [h] at hprefix ⊢
    rw [search, if_pos hprefix]
    exact le_rfl
  | cons x front ih =>
    rw [List.cons_append, List.cons_append] at h
    rw [h, search]
    split
    · exact Nat.zero_le _
    · exact Nat.succ_le_succ (ih rfl)

/-- **A search finds the first occurrence**, -/
theorem search_first (hkey : key ≠ []) (hlt : search key value < value.length) :
    First key value (value.take (search key value))
      (value.drop (search key value + key.length)) := by
  have hfound : ∀ value : List α, search key value < value.length →
      key <+: value.drop (search key value) := by
    intro value hlt
    induction value with
    | nil => exact absurd hlt (Nat.not_lt_zero _)
    | cons x value ih =>
      by_cases hprefix : key <+: x :: value
      · rw [search, if_pos hprefix]
        exact hprefix
      · rw [search, if_neg hprefix] at hlt ⊢
        exact ih (Nat.lt_of_succ_lt_succ hlt)
  obtain ⟨rest, hrest⟩ := hfound value hlt
  refine ⟨?_, fun front' rest' h => ?_⟩
  · have hdrop : value.drop (search key value + key.length) = rest := by
      rw [← List.drop_drop, ← hrest, List.drop_left]
    rw [hdrop, List.append_assoc, hrest, List.take_append_drop]
  · rw [List.length_take, min_eq_left hlt.le]
    exact search_le_length hkey h

/-- or there is none. -/
theorem search_eq_length_iff (hkey : key ≠ []) :
    search key value = value.length ↔ ¬key <:+: value := by
  constructor
  · rintro h ⟨front, rest, rfl⟩
    have hle : search key (front ++ key ++ rest) ≤ front.length := search_le_length hkey rfl
    have hlen := List.length_pos_of_ne_nil hkey
    rw [h, List.length_append, List.length_append] at hle
    omega
  · intro hno
    by_contra hne
    exact hno (search_first hkey (lt_of_le_of_ne (search_le key value) hne)).occurring

theorem First.search_eq {front rest : List α} (hkey : key ≠ []) (h : First key value front rest) :
    search key value = front.length := by
  have hlt : search key value < value.length := by
    refine lt_of_le_of_ne (search_le key value) fun hlen => ?_
    exact (search_eq_length_iff hkey).1 hlen h.occurring
  obtain ⟨hfront, -⟩ := (search_first hkey hlt).unique h
  rw [← hfront, List.length_take, min_eq_left hlt.le]

end Search

/-! ### The pieces -/

/-- **The pieces of a word** between the occurrences of a key, found from the left one behind the
other. -/
inductive Cut (key : List α) : List α → List (List α) → Prop
  /-- The key does not occur. -/
  | last {value : List α} (hno : ¬key <:+: value) : Cut key value [value]
  /-- The key occurs; what is behind its first occurrence is cut in the same way. -/
  | cons {value front rest : List α} {pieces : List (List α)} (hfirst : First key value front rest)
      (hrest : Cut key rest pieces) : Cut key value (front :: pieces)

variable {key value : List α} {pieces pieces' : List (List α)}

theorem Cut.unique (h : Cut key value pieces) (h' : Cut key value pieces') :
    pieces = pieces' := by
  induction h generalizing pieces' with
  | last hno =>
    cases h' with
    | last => rfl
    | cons hfirst' => exact absurd hfirst'.occurring hno
  | cons hfirst _ ih =>
    cases h' with
    | last hno => exact absurd hfirst.occurring hno
    | cons hfirst' hrest' =>
      obtain ⟨rfl, rfl⟩ := hfirst.unique hfirst'
      rw [ih hrest']

theorem Cut.ne_nil (h : Cut key value pieces) : pieces ≠ [] := by
  cases h <;> exact List.cons_ne_nil _ _

/-- With the key between them the pieces are the word. -/
theorem Cut.intercalate (h : Cut key value pieces) :
    List.intercalate key pieces = value := by
  induction h with
  | last => exact List.intercalate_singleton ..
  | cons hfirst hrest ih =>
    obtain ⟨p, ps, rfl⟩ := List.exists_cons_of_ne_nil hrest.ne_nil
    rw [List.intercalate_cons_cons, ih, hfirst.1]

/-- The letters of a piece are letters of the word. -/
theorem Cut.mem_of_mem {piece : List α} (h : Cut key value pieces) (hpiece : piece ∈ pieces) :
    piece ⊆ value := by
  induction h with
  | last => exact List.mem_singleton.1 hpiece ▸ List.Subset.refl _
  | cons hfirst _ ih =>
    rw [hfirst.1]
    rcases List.mem_cons.1 hpiece with rfl | hpiece
    · exact fun x hx => List.mem_append_left _ (List.mem_append_left _ hx)
    · exact fun x hx => List.mem_append_right _ (ih hpiece hx)

/-- **There are the pieces** of every word, for a key that is not empty. -/
theorem exists_cut [DecidableEq α] (hkey : key ≠ []) (value : List α) :
    ∃ pieces, Cut key value pieces := by
  induction hn : value.length using Nat.strong_induction_on generalizing value with
  | _ n ih => ?_
  subst hn
  by_cases hno : key <:+: value
  · have hlt : search key value < value.length := by
      refine lt_of_le_of_ne (search_le key value) fun h => ?_
      exact (search_eq_length_iff hkey).1 h hno
    have hshorter : (value.drop (search key value + key.length)).length < value.length := by
      have := List.length_pos_of_ne_nil hkey
      rw [List.length_drop]
      omega
    obtain ⟨pieces, hpieces⟩ := ih _ hshorter _ rfl
    exact ⟨_, .cons (search_first hkey hlt) hpieces⟩
  · exact ⟨_, .last hno⟩

/-- How often a key occurs in a word, from the left and without overlaps. -/
inductive Occurs (key : List α) : List α → ℕ → Prop
  | none {value : List α} (hno : ¬key <:+: value) : Occurs key value 0
  | next {value front rest : List α} {n : ℕ} (hfirst : First key value front rest)
      (hrest : Occurs key rest n) : Occurs key value (n + 1)

/-- **There is one piece more** than there are occurrences. -/
theorem Cut.occurs_iff (h : Cut key value pieces) {n : ℕ} :
    Occurs key value n ↔ pieces.length = n + 1 := by
  induction h generalizing n with
  | last hno =>
    constructor
    · rintro (- | ⟨hfirst, -⟩)
      · rfl
      · exact absurd hfirst.occurring hno
    · intro hlen
      rw [Nat.succ_injective hlen.symm]
      exact .none hno
  | @cons value front rest pieces hfirst hrest ih =>
    rw [List.length_cons]
    constructor
    · rintro (hno | ⟨hfirst', hrest'⟩)
      · exact absurd hfirst.occurring hno
      · obtain ⟨-, rfl⟩ := hfirst.unique hfirst'
        rw [ih.1 hrest']
    · intro hlen
      obtain ⟨m, hm⟩ := Nat.exists_eq_succ_of_ne_zero
        (List.length_pos_of_ne_nil hrest.ne_nil).ne'
      rw [hm] at hlen
      rw [← Nat.succ_injective hlen]
      exact .next hfirst (ih.2 hm)

/-! ### Stripping -/

/-- The word without the letters of some kind at its ends. -/
def strip (p : α → Bool) (l : List α) : List α := (l.dropWhile p).rdropWhile p

variable {p : α → Bool} {l : List α}

theorem strip_eq_self (h : ∀ x ∈ l, p x = false) : strip p l = l := by
  have hdrop : l.dropWhile p = l := by
    rcases l with _ | ⟨x, l⟩
    · rfl
    · exact List.dropWhile_cons_of_neg (by simp [h x List.mem_cons_self])
  rw [strip, hdrop, List.rdropWhile_eq_self_iff]
  intro hne
  simp [h _ (List.getLast_mem hne)]

theorem strip_eq_nil (h : ∀ x ∈ l, p x) : strip p l = [] := by
  rw [strip, List.dropWhile_eq_nil_iff.2 h, List.rdropWhile_nil]

/-- **A word with a letter of another kind** lies between the letters that are stripped. -/
theorem exists_strip (h : ¬∀ x ∈ l, p x) :
    ∃ a b, l = a ++ strip p l ++ b ∧ (∀ x ∈ a, p x) ∧ (∀ x ∈ b, p x) ∧
      (∃ x m, strip p l = x :: m ∧ p x = false) ∧ ∃ m x, strip p l = m ++ [x] ∧ p x = false := by
  have hdrop : l.dropWhile p ≠ [] := fun hnil => h (List.dropWhile_eq_nil_iff.1 hnil)
  have hhead := List.head_dropWhile_not p hdrop
  have hne : strip p l ≠ [] := by
    rw [strip, Ne, List.rdropWhile_eq_nil_iff]
    intro hall
    simp [hall _ (List.head_mem hdrop)] at hhead
  have hsplit : l.dropWhile p = strip p l ++ (l.dropWhile p).rtakeWhile p :=
    (List.rdropWhile_append_rtakeWhile ..).symm
  refine ⟨l.takeWhile p, (l.dropWhile p).rtakeWhile p, ?_, fun x hx => ?_, fun x hx => ?_, ?_, ?_⟩
  · rw [List.append_assoc, ← hsplit, List.takeWhile_append_dropWhile]
  · exact List.mem_takeWhile_imp hx
  · exact List.mem_rtakeWhile_imp hx
  · obtain ⟨x, m, hx⟩ := List.exists_cons_of_ne_nil hne
    refine ⟨x, m, hx, ?_⟩
    have hcons : (l.dropWhile p).head? = some x := by
      rw [hsplit, hx]
      rfl
    rwa [List.head_of_head?_eq_some hcons] at hhead
  · refine ⟨(strip p l).dropLast, (strip p l).getLast hne, ?_, ?_⟩
    · exact (List.dropLast_append_getLast hne).symm
    · exact Bool.eq_false_of_not_eq_true (List.rdropWhile_last_not p _ hne)

end Pieces

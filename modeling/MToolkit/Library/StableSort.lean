import Mathlib.Data.List.InsertIdx
import Mathlib.Data.List.Sort
import Mathlib.Order.Basic

/-!
# Lists in the stable order of their arrivals

A list holds the elements that have arrived in the order of their keys, and those of equal
keys in the order of arrival (`List.StableSort`). Such a list is kept by inserting an
arrival before the first element of a greater key, and its head is the first among the
least of the arrivals.

What an insertion in the middle of a list does is also stated for lists that are in no
particular order, because a list may be so only in part.
-/

namespace List

universe u v

variable {α : Type u} {κ : Type v}

/-! ### Insertion where a search ends -/

theorem insertIdx_eq_take_append {l : List α} {n : ℕ} (hn : n ≤ l.length) (x : α) :
    l.insertIdx n x = l.take n ++ x :: l.drop n := by
  induction l generalizing n with
  | nil =>
    obtain rfl : n = 0 := by simpa using hn
    rfl
  | cons a l ih =>
    cases n with
    | zero => rfl
    | succ n =>
      rw [insertIdx_succ_cons, ih (by simpa using hn)]
      rfl

/-- What comes before the place where a search ends is not what was searched for. -/
theorem eq_false_of_mem_take_findIdx {l : List α} {p : α → Bool} {x : α}
    (hx : x ∈ l.take (l.findIdx p)) : p x = false := by
  obtain ⟨n, hn, rfl⟩ := getElem_of_mem hx
  rw [length_take] at hn
  rw [getElem_take]
  exact not_of_lt_findIdx (by omega)

/-- An insertion, seen through a filter that passes the element inserted. -/
theorem filter_insertIdx_of_pos {l : List α} {n : ℕ} (hn : n ≤ l.length) {p : α → Bool} {x : α}
    (hx : p x) :
    (l.insertIdx n x).filter p = (l.take n).filter p ++ x :: (l.drop n).filter p := by
  rw [insertIdx_eq_take_append hn, filter_append, filter_cons_of_pos hx]

/-- An insertion, seen through a filter that does not. -/
theorem filter_insertIdx_of_neg {l : List α} {n : ℕ} (hn : n ≤ l.length) {p : α → Bool} {x : α}
    (hx : ¬p x) : (l.insertIdx n x).filter p = l.filter p := by
  rw [insertIdx_eq_take_append hn, filter_append, filter_cons_of_neg hx, ← filter_append,
    take_append_drop]

/-- What holds of everything from the place on where a search ends, holds of everything that
stands behind something that was searched for. -/
theorem forall_mem_drop_findIdx_iff {l : List α} {p : α → Bool} {q : α → Prop}
    (hpq : ∀ x, p x → q x) :
    (∀ x ∈ l.drop (l.findIdx p), q x) ↔ l.Pairwise fun x y => p x → q y := by
  induction l with
  | nil => simp
  | cons a l ih =>
    rw [pairwise_cons, findIdx_cons]
    cases ha : p a with
    | true =>
      simp only [cond_true, drop_zero, forall_mem_cons, forall_const]
      refine ⟨fun h => ⟨h.2, ?_⟩, fun h => ⟨hpq a ha, h.1⟩⟩
      exact pairwise_of_forall_mem_list fun _ _ y hy _ => h.2 y hy
    | false => simpa using ih

/-- A search ends between what it passes over and what it looks for. -/
theorem findIdx_append_eq_length {a b : List α} {p : α → Bool} (ha : ∀ x ∈ a, p x = false)
    (hb : ∀ x ∈ b, p x = true) : (a ++ b).findIdx p = a.length := by
  have hnone : a.findIdx p = a.length := findIdx_eq_length_of_false ha
  have hfirst : b.findIdx p = 0 := by
    cases b with
    | nil => rfl
    | cons x b => simp [findIdx_cons, hb x mem_cons_self]
  rw [findIdx_append, hnone, hfirst, if_neg (lt_irrefl _), Nat.zero_add]

/-! ### The stable order -/

variable [LinearOrder κ]

/-- **The list is in the stable order of the arrivals**: by key, and by arrival where keys
are equal. -/
structure StableSort (key : α → κ) (l arrivals : List α) : Prop where
  sorted : l.Pairwise fun a b => key a ≤ key b
  ties : ∀ k, l.filter (fun a => key a = k) = arrivals.filter fun a => key a = k

variable {key key' : α → κ} {l a b arrivals : List α} {x y : α}

namespace StableSort

theorem nil : StableSort key [] [] := ⟨.nil, fun _ => rfl⟩

theorem mem_iff (h : StableSort key l arrivals) : x ∈ l ↔ x ∈ arrivals := by
  have hmem : x ∈ l.filter (fun a => key a = key x) ↔
      x ∈ arrivals.filter fun a => key a = key x := by rw [h.ties]
  simpa using hmem

/-- **The insertion of an arrival** keeps the order if what comes before has no greater key
and what comes behind has a greater one, -/
theorem splice (h : StableSort key (a ++ b) arrivals) (ha : ∀ y ∈ a, key y ≤ key x)
    (hb : ∀ y ∈ b, key x < key y) : StableSort key (a ++ x :: b) (arrivals ++ [x]) where
  sorted := by
    obtain ⟨hsa, hsb, hab⟩ := pairwise_append.mp h.sorted
    refine pairwise_append.mpr ⟨hsa, pairwise_cons.mpr ⟨fun y hy => (hb y hy).le, hsb⟩, ?_⟩
    intro y hy z hz
    rcases mem_cons.mp hz with rfl | hz
    · exact ha y hy
    · exact hab y hy z hz
  ties := by
    intro k
    have hties := h.ties k
    by_cases hk : key x = k
    · have hnone : b.filter (fun a => key a = k) = [] := by
        rw [filter_eq_nil_iff]
        intro y hy
        simpa [← hk] using (hb y hy).ne'
      rw [filter_append, hnone, append_nil] at hties
      rw [filter_append, filter_cons_of_pos (by simpa using hk), hnone, hties, filter_append,
        filter_cons_of_pos (by simpa using hk), filter_nil]
    · rw [filter_append, filter_cons_of_neg (by simpa using hk), ← filter_append, hties,
        filter_append, filter_cons_of_neg (by simpa using hk), filter_nil, append_nil]

/-- and only if, unless the arrival is there already. -/
theorem splice_iff (h : StableSort key (a ++ b) arrivals) (ha : ∀ y ∈ a, key y ≤ key x)
    (hx : x ∉ b) :
    StableSort key (a ++ x :: b) (arrivals ++ [x]) ↔ ∀ y ∈ b, key x < key y := by
  refine ⟨fun h' y hy => ?_, h.splice ha⟩
  have hle : key x ≤ key y :=
    (pairwise_cons.mp (pairwise_append.mp h'.sorted).2.1).1 y hy
  refine hle.lt_of_ne fun hxy => ?_
  -- The arrival stands before an earlier one of the same key.
  have hties := h'.ties (key x)
  have hties' := h.ties (key x)
  rw [filter_append] at hties'
  rw [filter_append, filter_cons_of_pos (by simp), filter_append, ← hties', append_assoc,
    append_cancel_left_eq, filter_cons_of_pos (by simp), filter_nil] at hties
  obtain ⟨z, c, hc⟩ : ∃ z c, b.filter (fun a => key a = key x) = z :: c := by
    refine exists_cons_of_ne_nil (ne_nil_of_mem (a := y) ?_)
    simpa [hxy] using hy
  have hz : z ∈ b := mem_of_mem_filter (hc ▸ mem_cons_self)
  rw [hc] at hties
  exact hx ((cons.inj hties).1 ▸ hz)

/-- **The insertion before the first greater key**, into the whole list. -/
theorem insert (h : StableSort key l arrivals) (x : α) :
    StableSort key (l.insertIdx (l.findIdx fun a => key x < key a) x) (arrivals ++ [x]) := by
  rw [insertIdx_eq_take_append findIdx_le_length]
  refine StableSort.splice ?_ ?_ ?_
  · rwa [take_append_drop]
  · intro y hy
    simpa using eq_false_of_mem_take_findIdx hy
  · intro y hy
    obtain ⟨n, hn, rfl⟩ := getElem_of_mem hy
    rw [length_drop] at hn
    have hlt : (l.findIdx fun a => key x < key a) < l.length := by omega
    have hfirst : key x < key l[l.findIdx fun a => key x < key a] := by
      simpa using findIdx_getElem (w := hlt)
    rw [getElem_drop]
    rcases Nat.eq_zero_or_pos n with rfl | hpos
    · exact hfirst
    · exact hfirst.trans_le (pairwise_iff_getElem.mp h.sorted _ _ _ _ (by omega))

/-- **The head** is the first among the least of the arrivals. -/
theorem exists_eq_append (h : StableSort key (x :: l) arrivals) :
    ∃ a b, arrivals = a ++ x :: b ∧ (∀ y ∈ a, key x < key y) ∧ ∀ y ∈ b, key x ≤ key y := by
  have hties := h.ties (key x)
  rw [filter_cons_of_pos (by simp)] at hties
  obtain ⟨a, b, rfl, ha, -, -⟩ := filter_eq_cons_iff.mp hties.symm
  have hle : ∀ y ∈ a ++ x :: b, key x ≤ key y := by
    intro y hy
    rcases mem_cons.mp (h.mem_iff.mpr hy) with rfl | hy
    · exact le_rfl
    · exact (pairwise_cons.mp h.sorted).1 y hy
  refine ⟨a, b, rfl, fun y hy => ?_, fun y hy => hle y (by simp [hy])⟩
  refine (hle y (by simp [hy])).lt_of_ne fun hxy => ha y hy ?_
  simp [hxy]

/-- The head leaves, and with it the arrival that it was. -/
theorem tail [DecidableEq α] (h : StableSort key (x :: l) arrivals) :
    StableSort key l (arrivals.erase x) where
  sorted := (pairwise_cons.mp h.sorted).2
  ties := by
    intro k
    rw [← erase_filter, ← h.ties k]
    by_cases hk : key x = k
    · rw [filter_cons_of_pos (by simpa using hk), erase_cons_head]
    · rw [filter_cons_of_neg (by simpa using hk), erase_of_not_mem]
      simp [hk]

/-- Only the keys of the elements matter. -/
theorem congr (h : StableSort key l arrivals) (hkey : ∀ x ∈ l, key' x = key x) :
    StableSort key' l arrivals where
  sorted := h.sorted.imp_of_mem fun hx hy hle => by rwa [hkey _ hx, hkey _ hy]
  ties := by
    intro k
    have hcongr : ∀ m : List α, (∀ x ∈ m, x ∈ l) →
        m.filter (fun a => key' a = k) = m.filter fun a => key a = k := by
      intro m hm
      refine filter_congr fun x hx => ?_
      rw [hkey x (hm x hx)]
    rw [hcongr l fun x => id, hcongr arrivals fun x => h.mem_iff.mpr, h.ties]

end StableSort

end List

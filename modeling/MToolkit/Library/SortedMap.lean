import MToolkit.Library.PartialMap
import Mathlib.Data.List.Pairwise
import Mathlib.Order.Defs.LinearOrder
import Mathlib.Tactic

/-!
# Maps as sorted lists

A `std::map` is its entries in the order of their keys, no key twice (`SortedMap`). What it is for
is to find the value of a key (`SortedMap.lookup`), as a partial function does, and the operations
are those of partial functions (`SortedMap.lookup_insert`, `SortedMap.lookup_erase`,
`SortedMap.lookup_filter`); the entries are what is found, and no more
(`SortedMap.mem_entries_iff`), so that nothing else distinguishes two maps (`SortedMap.ext_lookup`).
-/

universe u v

/-- The entries of a map, in the order of their keys. -/
structure SortedMap (κ : Type u) (ν : Type v) [LinearOrder κ] where
  entries : List (κ × ν)
  sorted : entries.Pairwise fun p q => p.1 < q.1

namespace SortedMap

variable {κ : Type u} {ν : Type v} [LinearOrder κ]

/-! ### Entries in their order -/

/-- The first entry with a key. -/
def find (entries : List (κ × ν)) (k : κ) : Option ν :=
  match entries with
  | [] => none
  | p :: ps => if p.1 = k then some p.2 else find ps k

/-- An entry put in its place, unless its key has one. -/
def place (k : κ) (v : ν) : List (κ × ν) → List (κ × ν)
  | [] => [(k, v)]
  | p :: ps => if k < p.1 then (k, v) :: p :: ps else if k = p.1 then p :: ps else p :: place k v ps

variable {ps : List (κ × ν)} {k j : κ} {v w : ν}

theorem find_eq_none (h : ∀ p ∈ ps, p.1 ≠ k) : find ps k = none := by
  induction ps with
  | nil => rfl
  | cons p ps ih =>
    rw [List.forall_mem_cons] at h
    rw [find, if_neg h.1]
    exact ih h.2

/-- In a sorted list, the entries are what is found. -/
theorem find_eq_some_iff (hps : ps.Pairwise fun p q => p.1 < q.1) :
    find ps k = some v ↔ (k, v) ∈ ps := by
  induction ps with
  | nil => simp [find]
  | cons p ps ih =>
    obtain ⟨hlt, hps⟩ := List.pairwise_cons.mp hps
    rw [find, List.mem_cons]
    by_cases hk : p.1 = k
    · have hnot : (k, v) ∉ ps := fun h => absurd hk (hlt _ h).ne
      rw [if_pos hk, Option.some.injEq]
      constructor
      · exact fun hv => .inl (Prod.ext hk.symm hv.symm)
      · exact fun h => h.elim (fun h => h ▸ rfl) fun h => absurd h hnot
    · have hne : (k, v) ≠ p := fun h => hk (h ▸ rfl)
      rw [if_neg hk, ih hps]
      exact ⟨.inr, fun h => h.resolve_left hne⟩

theorem mem_place {p : κ × ν} (h : p ∈ place k v ps) : p = (k, v) ∨ p ∈ ps := by
  induction ps with
  | nil => exact .inl (List.mem_singleton.mp h)
  | cons q ps ih =>
    rw [place] at h
    split_ifs at h
    · exact List.mem_cons.mp h
    · exact .inr h
    · rcases List.mem_cons.mp h with rfl | h
      · exact .inr List.mem_cons_self
      · exact (ih h).imp id (List.mem_cons_of_mem _)

theorem pairwise_place (hps : ps.Pairwise fun p q => p.1 < q.1) :
    (place k v ps).Pairwise fun p q => p.1 < q.1 := by
  induction ps with
  | nil => exact List.pairwise_singleton _ _
  | cons q ps ih =>
    have hcons := hps
    obtain ⟨hlt, hps⟩ := List.pairwise_cons.mp hps
    rw [place]
    split_ifs with hk heq
    · refine List.pairwise_cons.mpr ⟨?_, hcons⟩
      exact List.forall_mem_cons.mpr ⟨hk, fun p hp => hk.trans (hlt p hp)⟩
    · exact hcons
    · refine List.pairwise_cons.mpr ⟨fun p hp => ?_, ih hps⟩
      rcases mem_place hp with rfl | hp
      · exact lt_of_le_of_ne (not_lt.mp hk) (Ne.symm heq)
      · exact hlt p hp

/-- **What is placed is found**, unless there has been something before. -/
theorem find_place_self (hps : ps.Pairwise fun p q => p.1 < q.1) :
    find (place k v ps) k = some ((find ps k).getD v) := by
  induction ps with
  | nil => simp [place, find]
  | cons q ps ih =>
    obtain ⟨hlt, hps⟩ := List.pairwise_cons.mp hps
    rw [place]
    split_ifs with hk heq
    · have hnone : find (q :: ps) k = none := by
        refine find_eq_none (List.forall_mem_cons.mpr ⟨hk.ne', fun p hp => ?_⟩)
        exact (hk.trans (hlt p hp)).ne'
      rw [hnone, find, if_pos rfl, Option.getD_none]
    · rw [find, if_pos heq.symm, Option.getD_some]
    · rw [find, find, if_neg (Ne.symm heq), if_neg (Ne.symm heq), ih hps]

/-- The other keys find what they found. -/
theorem find_place_of_ne (hj : j ≠ k) : find (place k v ps) j = find ps j := by
  induction ps with
  | nil => simp [place, find, hj.symm]
  | cons q ps ih =>
    rw [place]
    split_ifs
    · rw [find, if_neg hj.symm]
    · rfl
    · rw [find, find, ih]

/-- A part of the entries. -/
theorem find_filter (hps : ps.Pairwise fun p q => p.1 < q.1) (p : κ × ν → Bool) :
    find (ps.filter p) k = (find ps k).filter fun v => p (k, v) := by
  ext v
  rw [find_eq_some_iff (hps.filter p), List.mem_filter, Option.filter_eq_some_iff,
    find_eq_some_iff hps]

/-! ### The operations -/

/-- What is found under a key. -/
def lookup (m : SortedMap κ ν) (k : κ) : Option ν := find m.entries k

/-- The map without entries. -/
def empty : SortedMap κ ν := ⟨[], .nil⟩

/-- `std::map::insert`: nothing happens to a key that has a value. -/
def insert (m : SortedMap κ ν) (k : κ) (v : ν) : SortedMap κ ν :=
  ⟨place k v m.entries, pairwise_place m.sorted⟩

/-- The entries that meet a condition. -/
def filter (m : SortedMap κ ν) (p : κ × ν → Bool) : SortedMap κ ν :=
  ⟨m.entries.filter p, m.sorted.filter p⟩

/-- `std::map::erase` -/
def erase (m : SortedMap κ ν) (k : κ) : SortedMap κ ν := m.filter fun p => p.1 ≠ k

variable (m : SortedMap κ ν)

@[simp] theorem lookup_empty (k : κ) : (empty : SortedMap κ ν).lookup k = none := rfl

theorem mem_entries_iff : (k, v) ∈ m.entries ↔ m.lookup k = some v :=
  (find_eq_some_iff m.sorted).symm

/-- **Insertion is that of partial functions.** -/
theorem lookup_insert (k : κ) (v : ν) : (m.insert k v).lookup = PartialMap.insert m.lookup k v := by
  funext j
  rw [lookup, insert]
  by_cases hj : j = k
  · subst hj
    rw [find_place_self m.sorted]
    cases h : m.lookup j with
    | none =>
      rw [PartialMap.insert_of_none h, Function.update_self, show find m.entries j = none from h]
      rfl
    | some w =>
      rw [PartialMap.insert_of_some h, h, show find m.entries j = some w from h]
      rfl
  · rw [find_place_of_ne hj]
    cases h : m.lookup k with
    | none => rw [PartialMap.insert_of_none h, Function.update_of_ne hj, lookup]
    | some w => rw [PartialMap.insert_of_some h, lookup]

theorem lookup_filter (p : κ × ν → Bool) (k : κ) :
    (m.filter p).lookup k = (m.lookup k).filter fun v => p (k, v) :=
  find_filter m.sorted p

/-- **Erasure is that of partial functions.** -/
theorem lookup_erase (k : κ) : (m.erase k).lookup = PartialMap.erase m.lookup k := by
  funext j
  rw [erase, lookup_filter]
  by_cases hj : j = k
  · subst hj
    cases m.lookup j <;> simp
  · rw [PartialMap.erase_of_ne hj]
    cases m.lookup j <;> simp [hj]

/-- **Maps that find the same are the same.** -/
theorem ext_lookup {m m' : SortedMap κ ν} (h : ∀ k, m.lookup k = m'.lookup k) : m = m' := by
  obtain ⟨ps, hps⟩ := m
  obtain ⟨qs, hqs⟩ := m'
  have hmem : ∀ p, p ∈ ps ↔ p ∈ qs := by
    rintro ⟨k, v⟩
    rw [← find_eq_some_iff hps, ← find_eq_some_iff hqs]
    exact Eq.congr_left (h k)
  have heq : ps = qs := by
    have hirr : ∀ {l : List (κ × ν)}, l.Pairwise (fun p q => p.1 < q.1) → l.Nodup :=
      fun hl => hl.imp fun hlt heq => hlt.ne (congrArg Prod.fst heq)
    have hperm : ps.Perm qs := (List.perm_ext_iff_of_nodup (hirr hps) (hirr hqs)).mpr hmem
    exact hperm.eq_of_pairwise (fun _ _ _ _ hab hba => absurd hab hba.not_gt) hps hqs
  subst heq
  rfl

end SortedMap

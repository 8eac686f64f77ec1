import MToolkit.Utilities.String

/-!
# Splitting at a key

`Split` cuts a string into its pieces and trims them. What it appends when empty pieces are not
kept is what it should (`MToolkit.String.Split_appends`). When they are kept, it still leaves out
those that are empty before they are trimmed, as the flag is not looked at where two keys follow
one another: it gives all fields back just when none is empty
(`MToolkit.String.SplitList_lossless_iff`).
-/

namespace MToolkit

namespace String

open Pieces

variable {value key group : List UInt8} {container pieces : List (List UInt8)}

/-- A letter is trimmed. -/
abbrev inGroup (group : List UInt8) (c : UInt8) : Bool := group.contains c

theorem findIdx?_of_group {a m : List UInt8} {x : UInt8} (ha : ∀ c ∈ a, inGroup group c = true)
    (hx : inGroup group x = false) :
    (a ++ x :: m).findIdx? (fun c => !inGroup group c) = some a.length := by
  have hnone : a.findIdx? (fun c => !inGroup group c) = none := by
    rw [List.findIdx?_eq_none_iff]
    exact fun c hc => congrArg not (ha c hc)
  rw [List.findIdx?_append, hnone, List.findIdx?_cons, hx]
  simp

/-- **`Trim` strips** the letters of the group. -/
theorem Trim_eq_strip (value group : List UInt8) :
    Trim value group = strip (inGroup group) value := by
  by_cases h : ∀ c ∈ value, inGroup group c = true
  · have hnone : find_first_not_of value group = none := by
      rw [find_first_not_of, List.findIdx?_eq_none_iff]
      exact fun c hc => congrArg not (h c hc)
    rw [Trim, hnone, strip_eq_nil h]
  · obtain ⟨a, b, hsplit, ha, hb, ⟨x, m, hx, hxg⟩, ⟨m', y, hy, hyg⟩⟩ := exists_strip h
    set s := strip (inGroup group) value
    have hfirst : find_first_not_of value group = some a.length := by
      rw [find_first_not_of, hsplit, hx, List.append_assoc, List.cons_append]
      exact findIdx?_of_group ha hxg
    have hlast : find_last_not_of value group = some (value.length - 1 - b.length) := by
      have hreverse : value.reverse = b.reverse ++ y :: (a ++ m').reverse := by
        rw [hsplit, hy]
        simp
      have hb' : ∀ c ∈ b.reverse, inGroup group c = true :=
        fun c hc => hb c (List.mem_reverse.1 hc)
      rw [find_last_not_of, hreverse, findIdx?_of_group hb' hyg, List.length_reverse]
      rfl
    have hlen : 1 + (value.length - 1 - b.length) - a.length = s.length := by
      have : 0 < s.length := by
        rw [hx]
        exact Nat.succ_pos _
      rw [hsplit, List.length_append, List.length_append]
      omega
    rw [Trim, hfirst, hlast]
    change substr value a.length _ = s
    rw [hlen, substr, hsplit, List.append_assoc, List.drop_left, List.take_left]

/-! ### The loop -/

/-- What is appended for a piece. -/
def appended (keepEmpty : Bool) (piece : List UInt8) : Option (List UInt8) :=
  if piece = [] then none
  else
    let str := Trim piece [cr, lf]
    if keepEmpty || !str.isEmpty then some str else none

theorem append_filterMap (keepEmpty : Bool) {piece : List UInt8} (hne : piece ≠ []) :
    (if (keepEmpty || !(Trim piece [cr, lf]).isEmpty) = true then
      container ++ [Trim piece [cr, lf]] else container) =
        container ++ [piece].filterMap (appended keepEmpty) := by
  rw [List.filterMap_cons, appended, if_neg hne]
  split
  · next h => simp [h]
  · next h => simp [h]

/-- **The loop goes along the pieces.** -/
theorem loop_cut (keepEmpty : Bool) (container : List (List UInt8)) (hkey : key ≠ [])
    (hcut : Cut key value pieces) :
    ∃ fuel, Split.loop key keepEmpty fuel value container =
      some (container ++ pieces.filterMap (appended keepEmpty)) := by
  induction hcut generalizing container with
  | @last value hno =>
    refine ⟨1, ?_⟩
    rw [Split.loop, (search_eq_length_iff hkey).2 hno]
    by_cases hne : value = []
    · subst hne
      exact (if_neg (not_not.2 rfl)).trans (congrArg some (List.append_nil container).symm)
    · rw [if_pos (by simpa using hne), List.take_length]
      dsimp only
      rw [if_pos rfl, append_filterMap keepEmpty hne]
  | @cons value front rest pieces hfirst hrest ih =>
    have hdrop : value.drop (front.length + key.length) = rest := by
      rw [hfirst.1, List.append_assoc, ← List.drop_drop, List.drop_left, List.drop_left]
    have htake : value.take front.length = front := by
      rw [hfirst.1, List.append_assoc, List.take_left]
    have hkeylen := List.length_pos_of_ne_nil hkey
    have hlen : value.length = front.length + key.length + rest.length := by
      rw [hfirst.1, List.length_append, List.length_append]
    by_cases hne : front = []
    · subst hne
      obtain ⟨fuel, hloop⟩ := ih container
      refine ⟨fuel + 1, ?_⟩
      have hvalue : value ≠ [] := List.ne_nil_of_length_pos (by omega)
      rw [Split.loop, hfirst.search_eq hkey, hdrop, hloop]
      exact (if_neg (not_not.2 rfl)).trans (if_neg hvalue)
    · obtain ⟨fuel, hloop⟩ := ih (container ++ [front].filterMap (appended keepEmpty))
      refine ⟨fuel + 1, ?_⟩
      rw [Split.loop, hfirst.search_eq hkey, if_pos (by simpa using hne), htake]
      dsimp only
      rw [append_filterMap keepEmpty hne, if_neg (by omega), hdrop, hloop, List.append_assoc,
        ← List.filterMap_append]
      rfl

theorem loop_unique {keepEmpty : Bool} {fuel fuel' : ℕ} {r r' : List (List UInt8)}
    (h : Split.loop key keepEmpty fuel value container = some r)
    (h' : Split.loop key keepEmpty fuel' value container = some r') : r = r' := by
  induction fuel generalizing fuel' value container with
  | zero => exact absurd h (by simp [Split.loop])
  | succ fuel ih =>
    rcases fuel' with _ | fuel'
    · exact absurd h' (by simp [Split.loop])
    rw [Split.loop] at h h'
    dsimp only at h h'
    by_cases hlast : search key value ≠ 0
    · rw [if_pos hlast] at h h'
      by_cases hend : search key value = value.length
      · rw [if_pos hend] at h h'
        exact Option.some_injective _ (h.symm.trans h')
      · rw [if_neg hend] at h h'
        exact ih h h'
    · rw [if_neg hlast] at h h'
      by_cases hnil : value = []
      · rw [if_pos hnil] at h h'
        exact Option.some_injective _ (h.symm.trans h')
      · rw [if_neg hnil] at h h'
        exact ih h h'

/-! ### Without empty pieces -/

/-- The ends of a line. -/
def isBreak (c : UInt8) : Bool := c == cr || c == lf

theorem Trim_breaks (piece : List UInt8) : Trim piece [cr, lf] = strip isBreak piece := by
  rw [Trim_eq_strip]
  refine congrArg (strip · piece) (funext fun c => ?_)
  simp [inGroup, isBreak, Bool.beq_eq_decide_eq]

theorem filterMap_appended (pieces : List (List UInt8)) :
    pieces.filterMap (appended false) = (pieces.map (strip isBreak)).filter (· ≠ []) := by
  induction pieces with
  | nil => rfl
  | cons piece pieces ih =>
    rw [List.filterMap_cons, List.map_cons, List.filter_cons, ih, appended]
    by_cases hne : piece = []
    · subst hne
      rfl
    · rw [if_neg hne, Trim_breaks]
      by_cases hstrip : strip isBreak piece = []
      · simp [hstrip]
      · simp [hstrip]

/-- **`Split` appends the pieces**, without the ends of lines at their ends, but for those that
are empty then. -/
theorem Split_appends (hkey : key ≠ []) (value : List UInt8) (container : List (List UInt8)) :
    ∃ fuel pieces, Cut key value pieces ∧
      let result := container ++ (pieces.map (strip isBreak)).filter (· ≠ [])
      Split value key container false fuel = some (result, result.length) := by
  obtain ⟨pieces, hcut⟩ := exists_cut hkey value
  obtain ⟨fuel, hloop⟩ := loop_cut false container hkey hcut
  refine ⟨fuel, pieces, hcut, ?_⟩
  rw [Split, if_neg hkey, hloop, filterMap_appended]
  rfl

/-- The pieces of `",a\r,"` at the commas. -/
theorem Split_appends_comma : ∃ fuel pieces, Cut [0x2C] [0x2C, 0x61, 0x0D, 0x2C] pieces ∧
    let result := [[0x62]] ++ (pieces.map (strip isBreak)).filter (· ≠ [])
    Split [0x2C, 0x61, 0x0D, 0x2C] [0x2C] [[0x62]] false fuel = some (result, result.length) :=
  Split_appends (by decide) _ _

/-! ### With empty pieces -/

/-- **All fields are kept**: with the key between them they are the string again, and there is
one more than there are keys, if there is anything to be split. -/
def Lossless (value key : List UInt8) : Prop :=
  ∃ fuel fields, SplitList value key true fuel = some fields ∧
    List.intercalate key fields = value ∧
    (value ≠ [] → ∃ n, Occurs key value n ∧ fields.length = n + 1)

/-- No piece is trimmed where there are no ends of lines. -/
theorem filterMap_appended_true (hcut : Cut key value pieces)
    (hvalue : ∀ c ∈ value, isBreak c = false) :
    pieces.filterMap (appended true) = pieces.filter (· ≠ []) := by
  have happended : ∀ piece ∈ pieces, appended true piece =
      if piece = [] then none else some piece := by
    intro piece hpiece
    rw [appended, Trim_breaks, strip_eq_self fun c hc => hvalue c (hcut.mem_of_mem hpiece hc)]
    simp
  rw [List.filterMap_congr happended, ← List.filterMap_eq_filter]
  refine List.filterMap_congr fun piece _ => ?_
  by_cases hne : piece = []
  · simp [hne, Option.guard]
  · simp [hne, Option.guard]

theorem SplitList_eq {fuel : ℕ} {fields : List (List UInt8)} (hkey : key ≠ [])
    (hcut : Cut key value pieces) (hvalue : ∀ c ∈ value, isBreak c = false)
    (h : SplitList value key true fuel = some fields) : fields = pieces.filter (· ≠ []) := by
  rw [SplitList, Split, if_neg hkey, Option.map_map, Option.map_eq_some_iff] at h
  obtain ⟨fields, hloop, rfl⟩ := h
  obtain ⟨fuel', hloop'⟩ := loop_cut true [] hkey hcut
  rw [filterMap_appended_true hcut hvalue, List.nil_append] at hloop'
  exact loop_unique hloop hloop'

theorem exists_SplitList (hkey : key ≠ []) (hcut : Cut key value pieces)
    (hvalue : ∀ c ∈ value, isBreak c = false) :
    ∃ fuel, SplitList value key true fuel = some (pieces.filter (· ≠ [])) := by
  obtain ⟨fuel, hloop⟩ := loop_cut true [] hkey hcut
  refine ⟨fuel, ?_⟩
  rw [SplitList, Split, if_neg hkey, hloop, filterMap_appended_true hcut hvalue]
  rfl

/-- **When no field is lost.** Empty fields are lost, also when they are to be kept. -/
theorem SplitList_lossless_iff (hkey : key ≠ []) (hvalue : ∀ c ∈ value, isBreak c = false) :
    Lossless value key ↔ value = [] ∨ ∀ pieces, Cut key value pieces → [] ∉ pieces := by
  obtain ⟨pieces, hcut⟩ := exists_cut hkey value
  constructor
  · rintro ⟨fuel, fields, hfields, -, hcount⟩
    refine or_iff_not_imp_left.2 fun hne pieces hcut hempty => ?_
    obtain ⟨n, hoccurs, hlen⟩ := hcount hne
    rw [← hcut.occurs_iff.1 hoccurs, SplitList_eq hkey hcut hvalue hfields] at hlen
    have hall := List.length_filter_eq_length_iff.1 hlen [] hempty
    simp at hall
  · rintro (rfl | hfull)
    · -- the only field is empty and dropped, and nothing is what is left
      obtain ⟨fuel, hfields⟩ := exists_SplitList hkey hcut hvalue
      refine ⟨fuel, _, hfields, ?_, fun hne => absurd rfl hne⟩
      cases hcut with
      | last => rfl
      | cons hfirst => exact absurd (List.infix_nil.1 hfirst.occurring) hkey
    · have hall : pieces.filter (· ≠ []) = pieces := by
        refine List.filter_eq_self.2 fun piece hpiece => decide_eq_true ?_
        rintro rfl
        exact hfull pieces hcut hpiece
      obtain ⟨fuel, hfields⟩ := exists_SplitList hkey hcut hvalue
      rw [hall] at hfields
      refine ⟨fuel, pieces, hfields, hcut.intercalate, fun _ => ?_⟩
      obtain ⟨n, hn⟩ := Nat.exists_eq_succ_of_ne_zero (List.length_pos_of_ne_nil hcut.ne_nil).ne'
      exact ⟨n, hcut.occurs_iff.2 hn, hn⟩

/-- The field before the comma of `",a"` is lost. -/
theorem SplitList_loses : SplitList [0x2C, 0x61] [0x2C] true 3 = some [[0x61]] ∧
    ¬Lossless [0x2C, 0x61] [0x2C] := by
  refine ⟨by decide, ?_⟩
  rintro ⟨fuel, fields, hfields, hjoin, -⟩
  have hfirst : First [(0x2C : UInt8)] [0x2C, 0x61] [] [0x61] :=
    @search_first UInt8 _ [0x2C] [0x2C, 0x61] (by decide) (by decide)
  have hcut : Cut [(0x2C : UInt8)] [0x2C, 0x61] [[], [0x61]] := .cons hfirst (.last (by decide))
  rw [SplitList_eq (by decide) hcut (by simp [isBreak, cr, lf]; decide) hfields] at hjoin
  exact absurd hjoin (by decide)

/-- All fields of `"a,b"` are kept. -/
theorem SplitList_keeps : Lossless [0x61, 0x2C, 0x62] [0x2C] := by
  have hvalue : ∀ c ∈ [0x61, 0x2C, 0x62], isBreak c = false := by
    simp [isBreak, cr, lf]
    decide
  refine (SplitList_lossless_iff (by decide) hvalue).2 (Or.inr fun pieces hcut => ?_)
  have hfirst : First [(0x2C : UInt8)] [0x61, 0x2C, 0x62] [0x61] [0x62] :=
    @search_first UInt8 _ [0x2C] [0x61, 0x2C, 0x62] (by decide) (by decide)
  have hcut' : Cut [(0x2C : UInt8)] [0x61, 0x2C, 0x62] [[0x61], [0x62]] :=
    .cons hfirst (.last (by decide))
  rw [hcut.unique hcut']
  decide

end String

end MToolkit

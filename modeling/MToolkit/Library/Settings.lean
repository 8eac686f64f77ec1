import Mathlib.Logic.Function.Basic
import Mathlib.Tactic

/-!
# Settings

Options that are set one after the other: a later write of an option overrides the earlier ones,
and leaves the other options alone (`Settings.settled`). So what an option is in the end depends on
its last write only (`Settings.settled_concat_self`, `Settings.settled_append_of_forall`), and later
writes come before earlier ones (`Settings.settled_append`). One field alone, which some steps write
and the others leave alone, is the same after two runs just when it has been written, or was the
same before (`Settings.foldl_getD_eq_iff`).
-/

namespace Settings

variable {κ ν : Type} [DecidableEq κ]

/-- What one write makes of the options. -/
def write (options : κ → Option ν) (w : κ × ν) : κ → Option ν :=
  Function.update options w.1 (some w.2)

/-- **What the options are** after the writes, where none is set at first. -/
def settled (ws : List (κ × ν)) : κ → Option ν := ws.foldl write fun _ => none

variable {ws : List (κ × ν)} {k : κ}

theorem settled_concat (ws : List (κ × ν)) (w : κ × ν) :
    settled (ws ++ [w]) = write (settled ws) w := by
  rw [settled, List.foldl_append]
  rfl

/-- **The last write is what counts.** -/
theorem settled_concat_self (ws : List (κ × ν)) (k : κ) (v : ν) :
    settled (ws ++ [(k, v)]) k = some v := by
  rw [settled_concat, write]
  exact Function.update_self _ _ _

/-- The other options are left alone. -/
theorem settled_append_of_forall (ws : List (κ × ν)) {ws' : List (κ × ν)}
    (h : ∀ w ∈ ws', w.1 ≠ k) : settled (ws ++ ws') k = settled ws k := by
  induction ws' using List.reverseRecOn with
  | nil => rw [List.append_nil]
  | append_singleton ws' w ih =>
    rw [← List.append_assoc, settled_concat, write]
    rw [Function.update_of_ne (h w (by simp)).symm]
    exact ih fun w hw => h w (by simp [hw])

/-- An option that is not written is not set. -/
theorem settled_eq_none (h : ∀ w ∈ ws, w.1 ≠ k) : settled ws k = none := by
  have hnil : settled ([] ++ ws) k = settled [] k := settled_append_of_forall [] h
  rw [List.nil_append] at hnil
  exact hnil

/-- **Later writes come first.** -/
theorem settled_append (ws ws' : List (κ × ν)) (k : κ) :
    settled (ws ++ ws') k = (settled ws' k).or (settled ws k) := by
  induction ws' using List.reverseRecOn with
  | nil => rw [List.append_nil, show settled [] k = (none : Option ν) from rfl, Option.none_or]
  | append_singleton ws' w ih =>
    obtain ⟨key, v⟩ := w
    rw [← List.append_assoc, settled_concat, settled_concat, write, write]
    by_cases hkey : k = key
    · rw [hkey, Function.update_self, Function.update_self, Option.some_or]
    · rw [Function.update_of_ne hkey, Function.update_of_ne hkey]
      exact ih

@[simp] theorem settled_nil : settled ([] : List (κ × ν)) k = none := rfl

theorem settled_cons (w : κ × ν) (ws : List (κ × ν)) (k : κ) :
    settled (w :: ws) k = (settled ws k).or (if k = w.1 then some w.2 else none) := by
  rw [← List.singleton_append, settled_append]
  by_cases hkey : k = w.1
  · rw [if_pos hkey, hkey, show [w] = [] ++ [(w.1, w.2)] from rfl, settled_concat_self]
  · have hnone : settled [w] k = none := settled_eq_none (by simpa using Ne.symm hkey)
    rw [if_neg hkey, hnone]

/-- **A field that steps write or leave alone** is the same after the same steps just when one of
them writes it, or it was the same before. -/
theorem foldl_getD_eq_iff {α : Type} (g : α → Option ν) (cs : List α) (x y : ν) :
    cs.foldl (fun x c => (g c).getD x) x = cs.foldl (fun x c => (g c).getD x) y ↔
      x = y ∨ ∃ c ∈ cs, (g c).isSome := by
  induction cs generalizing x y with
  | nil => simp
  | cons c cs ih =>
    rw [List.foldl_cons, List.foldl_cons, ih]
    cases hc : g c with
    | none => simp [hc]
    | some v => simp [hc]

end Settings

import Mathlib.Data.List.Basic

/-!
# Computations that may fail

Rules for `Except`: taking a composed computation apart, and the loop rule for
`List.foldlM`, in which the invariant is told what is left of the list. A loop
that swaps a container out and works through its items keeps an invariant of just
that shape: the state agrees with its specification *together with* the items not
yet processed.
-/

namespace Fallible

universe u v

variable {ε α β σ : Type u}

@[simp] theorem pure_eq_ok (a : α) : (pure a : Except ε α) = .ok a := rfl

@[simp] theorem ok_bind (a : α) (f : α → Except ε β) : (Except.ok a >>= f) = f a := rfl

@[simp] theorem error_bind (e : ε) (f : α → Except ε β) :
    ((Except.error e : Except ε α) >>= f) = .error e := rfl

/-- A composed computation returns when both of its parts do. -/
theorem bind_eq_ok {x : Except ε α} {f : α → Except ε β} {b : β} :
    (x >>= f) = .ok b ↔ ∃ a, x = .ok a ∧ f a = .ok b := by
  cases x <;> simp

variable {ι : Type v} {f : σ → ι → Except ε σ} {I : List ι → σ → Prop}

/-- **The loop rule**: what every step of the loop keeps, the loop keeps. -/
theorem foldlM_preserves (hstep : ∀ {x l s s'}, I (x :: l) s → f s x = .ok s' → I l s')
    (l : List ι) : ∀ {s s' : σ}, I l s → l.foldlM f s = .ok s' → I [] s' := by
  induction l with
  | nil =>
    intro s s' hs h
    obtain rfl : s = s' := Except.ok.inj h
    exact hs
  | cons x l ih =>
    intro s s' hs h
    rw [List.foldlM_cons, bind_eq_ok] at h
    obtain ⟨m, hm, hrest⟩ := h
    exact ih (hstep hs hm) hrest

/-- **The loop rule with progress**: where every step keeps the invariant or fails in
a way that is allowed, so does the loop. -/
theorem foldlM_total {E : ε → Prop}
    (hstep : ∀ {x l s}, I (x :: l) s →
      (∃ s', f s x = .ok s' ∧ I l s') ∨ ∃ e, f s x = .error e ∧ E e)
    (l : List ι) : ∀ {s : σ}, I l s →
      (∃ s', l.foldlM f s = .ok s' ∧ I [] s') ∨ ∃ e, l.foldlM f s = .error e ∧ E e := by
  induction l with
  | nil => exact fun {s} hs => .inl ⟨s, rfl, hs⟩
  | cons x l ih =>
    intro s hs
    rw [List.foldlM_cons]
    rcases hstep hs with ⟨m, hm, hI⟩ | ⟨e, he, hE⟩
    · rw [hm, ok_bind]
      exact ih hI
    · rw [he, error_bind]
      exact .inr ⟨e, rfl, hE⟩

/-- A loop over a concatenation is one loop after the other. -/
theorem foldlM_append_eq_ok {l l' : List ι} {s s' : σ} :
    (l ++ l').foldlM f s = .ok s' ↔ ∃ m, l.foldlM f s = .ok m ∧ l'.foldlM f m = .ok s' := by
  rw [List.foldlM_append, bind_eq_ok]

end Fallible

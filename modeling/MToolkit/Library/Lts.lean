import Mathlib.Data.List.Basic
import Mathlib.Logic.Function.Basic

/-!
# Runs of a labelled step relation

The vocabulary in which a property of a program's runs is stated, for an
arbitrary state type `σ`, label type `L` and step relation. Nothing here knows
what a state or a label is.

* `Lts.Run step s ls u` – the labels `ls` lead from `s` to `u`;
* `Lts.Run.preserves` – the invariant rule, with a condition on the labels, and
  `Lts.Run.invariant`, without;
* `Lts.Run.leads` – what some label brings about, where it stays;
* `Lts.Run.iff_of_invariant` – step relations that agree where an invariant holds have the
  same runs;
* `Lts.Run.simulate` – a simulation carries runs to runs, and `Lts.Run.refine`, to runs with the
  same labels;
* `Lts.states`, `Lts.steps` – where the steps are a function, the states that a run goes through
  and the steps it takes, with `Lts.states_iff_steps` for an invariant that is not always kept.
-/

namespace Lts

universe u v w x

variable {σ : Type u} {L : Type v} {τ : Type w} {M : Type x}

/-- **A run**: the labels, in order, lead from the first state to the last. -/
inductive Run (step : σ → L → σ → Prop) : σ → List L → σ → Prop
  /-- The run that takes no step. -/
  | nil (s : σ) : Run step s [] s
  /-- A step followed by a run. -/
  | cons {s m u : σ} {l : L} {ls : List L} :
      step s l m → Run step m ls u → Run step s (l :: ls) u

variable {step : σ → L → σ → Prop}

theorem Run.single {s u : σ} {l : L} (h : step s l u) : Run step s [l] u :=
  .cons h (.nil u)

/-- Runs compose. -/
theorem Run.append {s m u : σ} {ls ms : List L} (h : Run step s ls m) (h' : Run step m ms u) :
    Run step s (ls ++ ms) u := by
  induction h with
  | nil => exact h'
  | cons hstep _ ih => exact .cons hstep (ih h')

theorem Run.snoc {s m u : σ} {l : L} {ls : List L} (h : Run step s ls m) (h' : step m l u) :
    Run step s (ls ++ [l]) u :=
  h.append (.single h')

/-- **The invariant rule.** What every step with an admissible label preserves,
a run of admissible labels preserves. -/
theorem Run.preserves {I : σ → Prop} {P : L → Prop}
    (hstep : ∀ {s l u}, I s → P l → step s l u → I u) {s u : σ} {ls : List L}
    (h : Run step s ls u) (hP : ∀ l ∈ ls, P l) (hs : I s) : I u := by
  induction h with
  | nil => exact hs
  | cons hl _ ih =>
    rw [List.forall_mem_cons] at hP
    exact ih hP.2 (hstep hs hP.1 hl)

/-- What every step preserves, every run preserves. -/
theorem Run.invariant {I : σ → Prop} (hstep : ∀ {s l u}, I s → step s l u → I u) {s u : σ}
    {ls : List L} (h : Run step s ls u) (hs : I s) : I u := by
  induction h with
  | nil => exact hs
  | cons hl _ ih => exact ih (hstep hs hl)

/-- **What some label brings about**: where a step with such a label takes `P` to `Q`, and all steps
keep each of them, a run from `P` that has such a label leads to `Q`. -/
theorem Run.leads {P Q : σ → Prop} {A C : L → Prop}
    (hP : ∀ {s l u}, P s → A l → step s l u → P u) (hQ : ∀ {s l u}, Q s → A l → step s l u → Q u)
    (hPQ : ∀ {s l u}, P s → A l → C l → step s l u → Q u) {s u : σ} {ls : List L}
    (h : Run step s ls u) (hA : ∀ l ∈ ls, A l) (hC : ∃ l ∈ ls, C l) (hs : P s) : Q u := by
  induction h with
  | nil => exact absurd hC (by simp)
  | @cons s m u l ls hl hrest ih =>
    rw [List.forall_mem_cons] at hA
    obtain ⟨c, hc, hCc⟩ := hC
    rcases List.mem_cons.mp hc with rfl | hc
    · have hm : Q m := hPQ hs hA.1 hCc hl
      exact hrest.preserves (I := Q) (P := A) (fun hq hl hstep => hQ hq hl hstep) hA.2 hm
    · exact ih hA.2 ⟨c, hc, hCc⟩ (hP hs hA.1 hl)

/-- A run is one of any step relation that has its steps, under an invariant of the run. -/
theorem Run.mono {step' : σ → L → σ → Prop} {I : σ → Prop}
    (hstep : ∀ {s l u}, I s → step s l u → step' s l u ∧ I u) {s u : σ} {ls : List L}
    (h : Run step s ls u) (hs : I s) : Run step' s ls u := by
  induction h with
  | nil s => exact .nil s
  | cons hl _ ih =>
    obtain ⟨hl', hm⟩ := hstep hs hl
    exact .cons hl' (ih hm)

/-- **Step relations that agree where an invariant holds** have the same runs. -/
theorem Run.iff_of_invariant {step' : σ → L → σ → Prop} {I : σ → Prop}
    (hiff : ∀ {s l u}, I s → (step s l u ↔ step' s l u))
    (hI : ∀ {s l u}, I s → step s l u → I u) {s u : σ} {ls : List L} (hs : I s) :
    Run step s ls u ↔ Run step' s ls u := by
  constructor
  · intro h
    refine h.mono (I := I) ?_ hs
    exact fun hs hl => ⟨(hiff hs).mp hl, hI hs hl⟩
  · intro h
    refine h.mono (I := I) ?_ hs
    exact fun hs hl => ⟨(hiff hs).mpr hl, hI hs ((hiff hs).mpr hl)⟩

/-- **A simulation carries runs to runs**: where every step of the concrete
relation, taken between related states, is matched by a run of the abstract one,
so is every run. -/
theorem Run.simulate {abs : τ → M → τ → Prop} {R : σ → τ → Prop} {f : L → List M}
    (hsim : ∀ {s l u a}, R s a → step s l u → ∃ b, Run abs a (f l) b ∧ R u b)
    {s u : σ} {ls : List L} (h : Run step s ls u) :
    ∀ {a : τ}, R s a → ∃ b, Run abs a (ls.flatMap f) b ∧ R u b := by
  induction h with
  | nil s => exact fun {a} ha => ⟨a, .nil a, ha⟩
  | cons hl _ ih =>
    intro a ha
    obtain ⟨m, hm, hRm⟩ := hsim ha hl
    obtain ⟨b, hb, hRb⟩ := ih hRm
    exact ⟨b, by simpa using hm.append hb, hRb⟩

/-- A simulation of each step by one step with the same label. -/
theorem Run.refine {abs : τ → L → τ → Prop} {R : σ → τ → Prop} {s u : σ} {ls : List L}
    (h : Run step s ls u) (hsim : ∀ {s l u a}, R s a → step s l u → ∃ b, abs a l b ∧ R u b) :
    ∀ {a : τ}, R s a → ∃ b, Run abs a ls b ∧ R u b := by
  induction h with
  | nil s => exact fun {a} ha => ⟨a, .nil a, ha⟩
  | cons hl _ ih =>
    intro a ha
    obtain ⟨m, hm, hRm⟩ := hsim ha hl
    obtain ⟨b, hb, hRb⟩ := ih hRm
    exact ⟨b, .cons hm hb, hRb⟩

/-! ### Steps that are a function -/

/-- The states that a run goes through. -/
def states (f : σ → L → σ) (s : σ) : List L → List σ
  | [] => [s]
  | l :: ls => s :: states f (f s l) ls

/-- The steps of a run, each with the state it is taken in. -/
def steps (f : σ → L → σ) (s : σ) : List L → List (σ × L)
  | [] => []
  | l :: ls => (s, l) :: steps f (f s l) ls

/-- A run starts where it starts. -/
theorem mem_states_self (f : σ → L → σ) (s : σ) (ls : List L) : s ∈ states f s ls := by
  cases ls <;> exact List.mem_cons_self

/-- What every step preserves holds throughout a run. -/
theorem forall_states {f : σ → L → σ} {I : σ → Prop} (hstep : ∀ s l, I s → I (f s l))
    (ls : List L) {s : σ} (hs : I s) : ∀ u ∈ states f s ls, I u := by
  induction ls generalizing s with
  | nil => exact List.forall_mem_singleton.mpr hs
  | cons l ls ih => exact List.forall_mem_cons.mpr ⟨hs, ih (hstep s l hs)⟩

/-- A step of a run is taken in a state that the run goes through. -/
theorem mem_states_of_mem_steps {f : σ → L → σ} {ls : List L} {s : σ} {p : σ × L}
    (hp : p ∈ steps f s ls) : p.1 ∈ states f s ls := by
  induction ls generalizing s with
  | nil => exact absurd hp List.not_mem_nil
  | cons l ls ih =>
    rcases List.mem_cons.mp hp with rfl | hp
    · exact mem_states_self f s (l :: ls)
    · exact List.mem_cons_of_mem _ (ih hp)

/-- **Exact conditions**: where a step taken under the invariant keeps it just when it meets a
condition, the invariant holds throughout a run just when all its steps meet the condition. -/
theorem states_iff_steps {f : σ → L → σ} {I : σ → Prop} {C : σ → L → Prop}
    (hstep : ∀ s l, I s → (I (f s l) ↔ C s l)) (ls : List L) {s : σ} (hs : I s) :
    (∀ u ∈ states f s ls, I u) ↔ ∀ p ∈ steps f s ls, C p.1 p.2 := by
  induction ls generalizing s with
  | nil => simp [states, steps, hs]
  | cons l ls ih =>
    rw [states, steps, List.forall_mem_cons, List.forall_mem_cons]
    constructor
    · rintro ⟨-, hrest⟩
      have hnext : I (f s l) := hrest _ (mem_states_self f _ ls)
      exact ⟨(hstep s l hs).mp hnext, (ih hnext).mp hrest⟩
    · rintro ⟨hl, hrest⟩
      have hnext : I (f s l) := (hstep s l hs).mpr hl
      exact ⟨hs, (ih hnext).mpr hrest⟩

end Lts

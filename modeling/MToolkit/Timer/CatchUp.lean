import MToolkit.Timer.Registration
import MToolkit.Timer.Timely
import MToolkit.Timer.Track

/-!
# When the catch-up divides by zero

`RevisedExpire` divides by the period of the node, guarded only by a comparison of
the lateness with that period. A period of zero defeats the guard: `Executes` moves
the clock before it triggers, so a node of period zero is late by at least one, and
one is more than zero. Nothing in `Start` refuses such a period. As long as no timer of
period zero is running, every `Executes` comes back; and where the handlers only start
timers, only then (`MToolkit.Timer.TimerManager.survives_iff`).
-/

namespace MToolkit

namespace Timer

open Buckets Fallible Lts

/-- The call is a `Start`, in either form. -/
def Call.Starting : Call → Prop
  | .start .. => True
  | .startFunction .. => True
  | _ => False

theorem Call.Starting.not_touches {c : Call} (hc : c.Starting) (event : Event) :
    ¬c.Touches event := by
  cases c <;> simp_all [Call.Starting, Call.Touches]

namespace TimerManager

variable {s s' : TimerManager} {h : Handlers} {x y : NodeId} {p : List NodeId}

/-! ### A node of period zero stays where it was started -/

/-- A registered node of period zero is due. -/
def Stalled (s : TimerManager) : Prop :=
  ∀ event x, s.managerMap event = some x → (s.node x).interval = 0 →
    (s.node x).expire ≤ s.tickTime

theorem Stalled.setNode (hs : Stalled s) {n : TimerNode} {log : List Callback}
    (hint : n.interval = (s.node y).interval) (hexp : n.interval = 0 → n.expire ≤ s.tickTime) :
    Stalled { s with node := Function.update s.node y n, log := log } := by
  intro event x hm hzero
  by_cases hxy : x = y
  · subst hxy
    simp only [Function.update_self] at hzero ⊢
    exact hexp hzero
  · simp only [Function.update_of_ne hxy] at hzero ⊢
    exact hs _ _ hm hzero

theorem Effect.stalled {c : Call} (heff : Effect s c s') (hI : Inv p s) (hs : Stalled s) :
    Stalled s' := by
  cases heff with
  | same => exact hs
  | destroyed hm => exact hs.setNode rfl fun hzero => hs _ _ hm hzero
  | paused hm => exact hs.setNode rfl fun hzero => hs _ _ hm hzero
  | refused =>
    intro event x hm hzero
    have hne : x ≠ s.nextNode := (hI.keyed hm).2.ne
    simp only [Function.update_of_ne hne] at hzero ⊢
    exact hs _ _ hm hzero
  | @started _ event _ interval =>
    intro event' x hm hzero
    rcases PartialMap.update_eq_some.mp hm with ⟨-, rfl⟩ | ⟨-, hm'⟩
    · simp only [Function.update_self, TimerNode.make] at hzero ⊢
      omega
    · have hne : x ≠ s.nextNode := (hI.keyed hm').2.ne
      simp only [Function.update_of_ne hne] at hzero ⊢
      exact hs _ _ hm' hzero

theorem Stalled.trigger (hI : Inv (x :: p) s) (hs : Stalled s) (hv : (s.node x).isValid = true) :
    Stalled (s.trigger h x) := by
  have hdue : (s.node x).interval = 0 → (s.node x).expire + (s.node x).interval ≤ s.tickTime := by
    intro hzero
    rw [hzero, add_zero]
    exact hs _ _ (hI.registered x (by simp)) hzero
  refine hI.preserves_trigger (P := fun _ => True) hv (fun _ _ _ _ => trivial)
    (fun hs => hs.setNode rfl hdue) (fun hs => hs.setNode rfl hdue)
    (fun _ hIt ht heff => heff.stalled hIt ht) ?_ hs
  exact fun hIt ht => ht.setNode rfl fun hzero => ht _ _ (hIt.registered x (by simp)) hzero

theorem Stalled.visit (hI : Inv (x :: p) s) (hs : Stalled s) (hv : s.visit h x = .ok s') :
    Stalled s' := by
  cases visit_cases hv with
  | dropped => exact hs
  | erased => exact fun event y hm hzero => hs _ _ (PartialMap.erase_eq_some.mp hm).2 hzero
  | @triggered _ e _ hvalid _ ht _ hmax =>
    subst ht
    have htrig := hs.trigger (h := h) hI hvalid
    have hback : Stalled { s.trigger h x with
        node := Function.update (s.trigger h x).node x
          { (s.trigger h x).node x with expire := e } } := by
      refine htrig.setNode rfl fun hzero => hmax.trans (max_le ?_ le_rfl)
      exact htrig _ _ ((hI.trigger hvalid).1.registered x (by simp)) hzero
    exact hback

theorem Stalled.executes (hI : Inv [] s) (hs : Stalled s) (hex : s.executes h = .ok s') :
    Stalled s' := by
  refine hI.preserves_executes (I := fun _ => Stalled) hex (fun hIt _ ht hv => ht.visit hIt hv) ?_
  exact fun _ _ _ hm hzero => (hs _ _ hm hzero).trans (Int.le_add_one le_rfl)

theorem Reachable.stalled {P : Call → Prop} (hs : Reachable P s) : Stalled s := by
  obtain ⟨ls, hls, hrun⟩ := hs
  have hinit : Stalled init := fun _ _ hm => by simp [init] at hm
  refine (inv_init.preserves_run hrun hls ?_ ?_ hinit).2
  · exact fun _ hIt ht heff => heff.stalled hIt ht
  · exact fun _ hIt ht hex => ht.executes hIt hex

/-! ### When the driver survives -/

/-- A timer of period zero is running. -/
def Divides (s : TimerManager) : Prop :=
  ∃ event x, s.managerMap event = some x ∧ (s.node x).isValid = true ∧
    (s.node x).isPause = false ∧ (s.node x).interval = 0

/-- **`Executes` faults in one way only**, and only where a timer of period zero is
running. -/
theorem Inv.executes_or (hI : Inv [] s) :
    (∃ s', s.executes h = .ok s') ∨ (s.executes h = .error .divideByZero ∧ s.Divides) := by
  -- the nodes still to be visited are registered and have only had their flags moved
  let I (l : List NodeId) (t : TimerManager) : Prop :=
    ∀ y ∈ l, s.managerMap (s.node y).event = some y ∧ KeepsNode (s.node y) (t.node y)
  have hrun := hI.executes_total (h := h) (I := I) (E := fun e => e = .divideByZero ∧ s.Divides) ?_
    fun ha y hy => ⟨ha.inv.registered y (by simp [hy]), .refl _⟩
  · rcases hrun with ⟨s', hs', -⟩ | ⟨e, he, rfl, hd⟩
    · exact .inl ⟨s', hs'⟩
    · exact .inr ⟨he, hd⟩
  · intro x l t hIt hlt hk
    obtain ⟨hreg, hkeep⟩ := hk x List.mem_cons_self
    rcases hIt.visit (h := h) (hlt x List.mem_cons_self) with
      ⟨t', ht', hI', hpass⟩ | ⟨herr, hv, hp, hz⟩
    · refine .inl ⟨t', ht', fun y hy => ?_⟩
      have hne : y ≠ x := fun hyx => hIt.notMem_rest.2 (hyx ▸ hy)
      obtain ⟨hregy, hkeepy⟩ := hk y (List.mem_cons_of_mem x hy)
      exact ⟨hregy, hkeepy.trans (hpass.node y (hIt.lt (by simp [hy])) hne)⟩
    · have hpause : (s.node x).isPause = false := by
        rw [← Bool.not_eq_true] at hp ⊢
        exact fun hc => hp (hkeep.isPause hc)
      exact .inr ⟨_, herr, rfl, _, x, hreg, hkeep.isValid hv, hpause, hkeep.interval ▸ hz⟩

/-- A visit of a running node of period zero divides by zero. -/
theorem Inv.visit_divides (hI : Inv (x :: p) s) (hlate : (s.node x).expire < s.tickTime)
    (hv : (s.node x).isValid = true) (hp : (s.node x).isPause = false)
    (hz : (s.node x).interval = 0) : s.visit h x = .error .divideByZero := by
  obtain ⟨-, hpass, hexp, hint⟩ := hI.trigger (h := h) hv
  have htick := hpass.tickTime
  have hzero : ((s.trigger h x).node x).revisedExpire (s.trigger h x).tickTime =
      .error .divideByZero :=
    TimerNode.revisedExpire_eq_error.mpr ⟨rfl, by omega, by omega⟩
  rw [TimerManager.visit, if_pos hv, if_neg (by simp [hp]), TimerManager.revisedExpire, hzero]
  rfl

/-- Handlers that only start timers **leave a timer of period zero running** until it is visited. -/
theorem Reachable.executes_divides {P : Call → Prop} (hs : Reachable P s) (hh : h.All Call.Starting)
    (hd : s.Divides) : s.executes h = .error .divideByZero := by
  have hI := hs.inv
  obtain ⟨event, x, hm, hv, hp, hz⟩ := hd
  rcases hI.executes_or (h := h) with ⟨s', hs'⟩ | ⟨herr, -⟩
  · have hin : x ∈ contents s.slots := (hI.mapsAgree).running event x hm hv hp
    obtain ⟨q, m, m', hIm, hlm, -, -, hnode, -, -, hvisit, -⟩ := hI.executes_visited hs' hin
      (hs.stalled _ _ hm hz) (P := Call.Starting) (.inr fun c hc => hc.not_touches _) hh
    have hdiv := hIm.visit_divides (h := h) (hlm x List.mem_cons_self) (by rwa [hnode])
      (by rwa [hnode]) (by rwa [hnode])
    rw [hdiv] at hvisit
    cases hvisit
  · exact herr

/-! ### Over whole runs -/

/-- What calls and `Executes`, one after the other, make of a manager; the first fault ends them. -/
def drive (s : TimerManager) : List Label → Except Fault TimerManager
  | [] => .ok s
  | .call c :: ls => (s.call c).drive ls
  | .executes h :: ls => do
    let s ← s.executes h
    s.drive ls

/-- **Every `Executes` of the sequence** that is come to starts with no timer of period zero
running. -/
def Undivided (s : TimerManager) : List Label → Prop
  | [] => True
  | .call c :: ls => (s.call c).Undivided ls
  | .executes h :: ls => ¬s.Divides ∧ ∀ s', s.executes h = .ok s' → s'.Undivided ls

variable {u : TimerManager} {ls : List Label}

/-- The sequences that go through are the runs. -/
theorem drive_eq_ok : s.drive ls = .ok u ↔ Run Step s ls u := by
  induction ls generalizing s with
  | nil =>
    constructor
    · intro h
      obtain rfl : s = u := Except.ok.inj h
      exact .nil s
    · rintro ⟨⟩
      rfl
  | cons l ls ih =>
    cases l with
    | call c =>
      rw [drive, ih]
      constructor
      · exact fun hrun => .cons (.call c) hrun
      · intro hrun
        cases hrun with
        | cons hstep hrun =>
          cases hstep with
          | call => exact hrun
    | executes h =>
      rw [drive, bind_eq_ok]
      constructor
      · rintro ⟨m, hm, hrun⟩
        exact .cons (.executes hm) (ih.mp hrun)
      · intro hrun
        cases hrun with
        | cons hstep hrun =>
          cases hstep with
          | executes hm => exact ⟨_, hm, ih.mpr hrun⟩

/-- **No period of zero, no division**: the sequence goes through, whatever the handlers do. -/
theorem Inv.exists_drive (hI : Inv [] s) (hls : s.Undivided ls) : ∃ u, s.drive ls = .ok u := by
  induction ls generalizing s with
  | nil => exact ⟨s, rfl⟩
  | cons l ls ih =>
    cases l with
    | call c => exact ih ((Step.call c).inv hI) hls
    | executes h =>
      obtain ⟨hno, hrest⟩ := hls
      obtain ⟨m, hm⟩ := (hI.executes_or (h := h)).resolve_right fun hc => hno hc.2
      rw [drive, hm, ok_bind]
      exact ih ((Step.executes hm).inv hI) (hrest m hm)

/-- Where it goes through with handlers that only start timers, **there was none**. -/
theorem Reachable.undivided (hs : Reachable (fun _ => True) s)
    (hls : ∀ h, .executes h ∈ ls → h.All Call.Starting) (hne : s.drive ls ≠ .error .divideByZero) :
    s.Undivided ls := by
  induction ls generalizing s with
  | nil => trivial
  | cons l ls ih =>
    have hrest : ∀ h, .executes h ∈ ls → h.All Call.Starting :=
      fun h hh => hls h (List.mem_cons_of_mem l hh)
    cases l with
    | call c => exact ih (hs.call trivial) hrest hne
    | executes h =>
      refine ⟨fun hd => hne ?_, fun m hm => ?_⟩
      · rw [drive, hs.executes_divides (hls h List.mem_cons_self) hd]
        rfl
      · rw [drive, hm, ok_bind] at hne
        exact ih (hs.executes (fun _ _ _ _ => trivial) hm) hrest hne

/-- Timers of positive periods have none. -/
theorem Reachable.undivided_of_positive (hs : Reachable Call.Positive s)
    (hls : ∀ l ∈ ls, l.All Call.Positive) : s.Undivided ls := by
  induction ls generalizing s with
  | nil => trivial
  | cons l ls ih =>
    rw [List.forall_mem_cons] at hls
    cases l with
    | call c => exact ih (hs.call hls.1) hls.2
    | executes h =>
      refine ⟨?_, fun m hm => ih (hs.executes hls.1 hm) hls.2⟩
      rintro ⟨event, x, hm, -, -, hz⟩
      have hpos := hs.timely.period hm
      omega

/-- **When the driver survives.** In every state that calls lead to, and for every sequence of calls
and `Executes` from there, with any handlers: if no `Executes` starts while a timer of period zero
is running, none divides by zero, and all of them return. For handlers that only start timers this
is exact: such a timer can then not be destroyed or paused, by the `OnTrigger` of another one in the
same slot, before it is visited. -/
theorem survives_iff {P : Call → Prop} (hs : Reachable P s) (ls : List Label) :
    (s.Undivided ls → ∃ u, s.drive ls = .ok u ∧ Run Step s ls u) ∧
      ((∀ h, .executes h ∈ ls → h.All Call.Starting) →
        (s.drive ls ≠ .error .divideByZero ↔ s.Undivided ls)) := by
  have hI := hs.inv
  refine ⟨fun hund => ?_, fun hls => ⟨hs.any.undivided hls, fun hund herr => ?_⟩⟩
  · obtain ⟨u, hu⟩ := hI.exists_drive hund
    exact ⟨u, hu, drive_eq_ok.mp hu⟩
  · obtain ⟨u, hu⟩ := hI.exists_drive hund
    rw [herr] at hu
    cases hu

/-- A timer of period 10 survives 25 ticks, one of period zero not the first. -/
theorem survives_iff_start :
    (∃ u, Run Step (init.call (.start (.given 0) 1 10)) (List.replicate 25 (.executes idle)) u) ∧
      ¬(init.call (.start (.given 0) 1 0)).Undivided [.executes idle] := by
  have hidle : ∀ h, Label.executes h ∈ [Label.executes idle] → h.All Call.Starting := by
    intro h hh
    rw [Label.executes.inj (List.mem_singleton.mp hh)]
    exact idle_all
  constructor
  · have hs : Reachable Call.Positive (init.call (.start (.given 0) 1 10)) :=
      reachable_init.call (by simp [Call.Positive])
    have hall : ∀ l ∈ List.replicate 25 (Label.executes idle), l.All Call.Positive := by
      intro l hl
      rw [List.eq_of_mem_replicate hl]
      exact idle_all
    obtain ⟨u, -, hrun⟩ := (survives_iff hs _).1 (hs.undivided_of_positive hall)
    exact ⟨u, hrun⟩
  · have hs : Reachable (fun _ => True) (init.call (.start (.given 0) 1 0)) :=
      reachable_init.call trivial
    exact fun hund => ((survives_iff hs _).2 hidle).mpr hund rfl

/-- **A timer of period zero is accepted, and the next `Executes` divides by zero.** -/
theorem zero_period_divides :
    (init.start (.given 0) 1 0).1 = .returned true ∧
      (init.start (.given 0) 1 0).2.executes (fun _ _ => []) = .error .divideByZero :=
  ⟨rfl, rfl⟩

end TimerManager

end Timer

end MToolkit

import MToolkit.Timer.Visit

/-!
# Positive periods

With every interval at least one – as `MToolkit.Timer.Call.Positive` asks of the
calls – the clock never gets ahead of the wheel: a node in a slot is not yet due
before the tick, a node taken out by `Executes` was due at exactly that tick, and
after its `Trigger` it is due at this tick or later, so `RevisedExpire` finds
nothing to do (`MToolkit.Timer.TimerManager.Timely`). Hence `Executes` always
returns (`MToolkit.Timer.TimerManager.Inv.executes_total`).
-/

namespace MToolkit

namespace Timer

open Buckets Fallible Lts

namespace TimerManager

/-- **The clock is on time**, the nodes `p` being out of the wheel. -/
structure Timely (p : List NodeId) (s : TimerManager) : Prop where
  /-- Registered periods are positive. -/
  period : ∀ {event x}, s.managerMap event = some x → 1 ≤ (s.node x).interval
  /-- No node of the wheel is overdue. -/
  ahead : ∀ x ∈ contents s.slots, s.tickTime ≤ (s.node x).expire
  /-- The nodes out of the wheel were due at the tick before. -/
  due : ∀ x ∈ p, (s.node x).expire + 1 = s.tickTime

theorem timely_init : Timely [] init := by
  refine ⟨fun h => ?_, fun x hx => ?_, fun x hx => ?_⟩ <;> simp_all [init]

variable {s s' : TimerManager} {h : Handlers} {x : NodeId} {p : List NodeId}

/-- Changing a node: its period stays, and its expiry does unless it is nowhere. -/
theorem Timely.setNode (ht : Timely p s) {y : NodeId} {n : TimerNode} {log : List Callback}
    (hint : n.interval = (s.node y).interval)
    (hexp : n.expire = (s.node y).expire ∨ (y ∉ contents s.slots ∧ y ∉ p)) :
    Timely p { s with node := Function.update s.node y n, log := log } := by
  have hother : ∀ {x}, (x ∈ contents s.slots ∨ x ∈ p) →
      (Function.update s.node y n x).expire = (s.node x).expire := by
    intro x hx
    by_cases hxy : x = y
    · subst hxy
      rcases hexp with hexp | ⟨hslots, hp⟩
      · simpa using hexp
      · exact absurd hx (by simp [hslots, hp])
    · simp [hxy]
  constructor
  · intro event x hm
    by_cases hxy : x = y
    · subst hxy
      simpa [hint] using ht.period hm
    · simpa [hxy] using ht.period hm
  · intro x hx
    simpa [hother (.inl hx)] using ht.ahead x hx
  · intro x hx
    simpa [hother (.inr hx)] using ht.due x hx

/-- **A call with a positive interval keeps the clock on time.** -/
theorem Effect.timely {c : Call} {q : List NodeId} (heff : Effect s c s') (hI : Inv q s)
    (hpq : p ⊆ q) (hc : c.Positive) (ht : Timely p s) : Timely p s' := by
  -- the nodes there are do not change when one is made
  have hold : ∀ {n : TimerNode} {x}, x < s.nextNode →
      Function.update s.node s.nextNode n x = s.node x :=
    fun hx => Function.update_of_ne hx.ne _ _
  have hlt : ∀ {x}, x ∈ contents s.slots ∨ x ∈ p → x < s.nextNode :=
    fun hx => hI.lt (Multiset.mem_add.mpr (hx.imp_right fun hx => hpq hx))
  cases heff with
  | same => exact ht
  | destroyed => exact ht.setNode rfl (.inl rfl)
  | paused => exact ht.setNode rfl (.inl rfl)
  | refused =>
    constructor
    · intro event x hm
      simpa [hold (hI.keyed hm).2] using ht.period hm
    · intro x hx
      simpa [hold (hlt (.inl hx))] using ht.ahead x hx
    · intro x hx
      simpa [hold (hlt (.inr hx))] using ht.due x hx
  | @started _ event _ interval _ hstarts hm =>
    have hpos : 1 ≤ interval := by
      rcases hstarts with rfl | ⟨rfl, -⟩ <;> exact hc
    constructor
    · intro event' x he
      rcases PartialMap.update_eq_some.mp he with ⟨-, rfl⟩ | ⟨-, he'⟩
      · simpa [TimerNode.make] using hpos
      · simpa [hold (hI.keyed he').2] using ht.period he'
    · intro x hx
      rw [contents_push, Multiset.mem_cons] at hx
      rcases hx with rfl | hx
      · simp only [Function.update_self, TimerNode.make]
        omega
      · simpa [hold (hlt (.inl hx))] using ht.ahead x hx
    · intro x hx
      simpa [hold (hlt (.inr hx))] using ht.due x hx

/-- **`Trigger`** keeps it for the other nodes. -/
theorem Timely.trigger (hI : Inv (x :: p) s) (ht : Timely p s) (hh : h.All Call.Positive)
    (hv : (s.node x).isValid = true) : Timely p (s.trigger h x) := by
  have hx := hI.notMem_rest
  refine hI.preserves_trigger hv hh (fun hs => hs.setNode rfl (.inr hx))
    (fun hs => hs.setNode rfl (.inr hx)) ?_ (fun _ hs => hs.setNode rfl (.inl rfl)) ht
  exact fun hc hIt hs heff => heff.timely hIt (List.subset_cons_self _ _) hc hs

/-- **A visit keeps it**: the node triggered is due at this tick or later when it is put
back. -/
theorem Timely.visit (hI : Inv (x :: p) s) (ht : Timely (x :: p) s) (hh : h.All Call.Positive)
    (hs : s.visit h x = .ok s') : Timely p s' := by
  have hrest : Timely p s :=
    ⟨ht.period, ht.ahead, fun y hy => ht.due y (List.mem_cons_of_mem x hy)⟩
  cases visit_cases hs with
  | dropped => exact hrest
  | erased =>
    exact ⟨fun he => hrest.period (PartialMap.erase_eq_some.mp he).2, hrest.ahead, hrest.due⟩
  | @triggered _ e _ hv _ hu hle hmax hexact =>
    subst hu
    obtain ⟨hI', hpass, hexp, hint⟩ := hI.trigger (h := h) hv
    have hx := hI'.notMem_rest
    have hpos : 1 ≤ (s.node x).interval := ht.period (hI.registered x (by simp))
    have hdue := ht.due x List.mem_cons_self
    have htick := hpass.tickTime
    have hback : Timely p { s.trigger h x with
        node := Function.update (s.trigger h x).node x
          { (s.trigger h x).node x with expire := e } } :=
      (Timely.trigger hI hrest hh hv).setNode rfl (.inr hx)
    refine ⟨hback.period, fun y hy => ?_, hback.due⟩
    -- the node that is put back is due now or later
    rw [contents_push, Multiset.mem_cons] at hy
    rcases hy with rfl | hy
    · simp only [Function.update_self]
      omega
    · exact hback.ahead y hy

/-- **`Executes` returns**, on time. -/
theorem Timely.executes (hI : Inv [] s) (ht : Timely [] s) (hh : h.All Call.Positive) :
    ∃ s', s.executes h = .ok s' ∧ Timely [] s' := by
  have hrun := hI.executes_total (h := h) (I := Timely) (E := fun _ => False) ?_ ?_
  · rcases hrun with hreturns | ⟨-, -, hfalse⟩
    · exact hreturns
    · exact hfalse.elim
  · intro x p t hIt hlt htt
    rcases hIt.visit (h := h) (hlt x List.mem_cons_self) with ⟨t', hv, -⟩ | ⟨-, -, -, hzero⟩
    · exact .inl ⟨t', hv, htt.visit hIt hh hv⟩
    · have hpos := htt.period (hIt.registered x (by simp))
      omega
  · intro handed slots ha
    refine ⟨ht.period, fun x hx => ((ha.mem_slots x).mp hx).2, fun x hx => ?_⟩
    obtain ⟨hin, hlate⟩ := (ha.mem_handed x).mp hx
    have hahead := ht.ahead x hin
    simp only
    omega

/-- **Every run with positive intervals is on time.** -/
theorem Reachable.timely (hs : Reachable Call.Positive s) : Timely [] s := by
  obtain ⟨ls, hls, hrun⟩ := hs
  refine (inv_init.preserves_run hrun hls ?_ ?_ timely_init).2
  · exact fun hc hIt ht heff => heff.timely hIt (List.Subset.refl _) hc ht
  · intro h t t' hh hIt ht hex
    obtain ⟨u, hu, htu⟩ := ht.executes hIt hh
    obtain rfl := Except.ok.inj (hu.symm.trans hex)
    exact htu

/-! ### A driver left alone -/

/-- Handlers that make no calls. -/
def idle : Handlers := fun _ _ => []

theorem idle_all {P : Call → Prop} : idle.All P := fun _ _ _ hc => absurd hc List.not_mem_nil

/-- With positive intervals the driver can run any number of ticks by itself. -/
theorem exists_run_idle (hs : Reachable Call.Positive s) (k : ℕ) :
    ∃ u, Run Step s (List.replicate k (.executes idle)) u ∧ u.tickTime = s.tickTime + k := by
  induction k with
  | zero => exact ⟨s, .nil s, by simp⟩
  | succ k ih =>
    obtain ⟨u, hrun, htick⟩ := ih
    have hu : Reachable Call.Positive u := hs.run (fun l hl => by
      rw [List.eq_of_mem_replicate hl]
      exact idle_all) hrun
    obtain ⟨u', hu', -⟩ := hu.timely.executes hu.inv idle_all
    refine ⟨u', ?_, ?_⟩
    · rw [List.replicate_succ']
      exact hrun.snoc (.executes hu')
    · rw [hu.inv.executes_tick hu', htick]
      push_cast
      ring

/-! ### The interval limit -/

/-- `Start` refuses an interval beyond the limit: it throws, and the maps and the slots
are as they were. -/
def RefusesBeyondLimit (s : TimerManager) : Prop :=
  ∀ (event : Event) (count : Int64) (interval : ℤ), s.managerMap event = none →
    0xffffffff < interval →
      (s.start event count interval).1 = .threw ∧
        (s.start event count interval).2.managerMap = s.managerMap ∧
        (s.start event count interval).2.normalMap = s.normalMap ∧
        (s.start event count interval).2.pauseMap = s.pauseMap ∧
        (s.start event count interval).2.slots = s.slots

/-- **The interval limit is enforced at the door only.** `Start` refuses an interval
beyond it and leaves everything in place; and once inside, no `AddNode` throws: the
cascades of `Executes` keep every node of the wheel, its first half keeps or hands
over every one, and its loop returns, whatever admissible calls the handlers make. -/
theorem limit_at_the_door (hs : Reachable Call.Positive s) :
    RefusesBeyondLimit s ∧
      (2 ^ timerNearBits ∣ s.tickTime →
        ∃ w, s.wheel.cascades = .ok w ∧ contents w.slots = contents s.slots) ∧
      (∃ handed s₁, s.advance = .ok (handed, s₁) ∧
        contents s₁.slots + (handed : Multiset NodeId) = contents s.slots) ∧
      ∀ h : Handlers, h.All Call.Positive → ∃ s', s.executes h = .ok s' := by
  have hI := hs.inv
  refine ⟨fun event count interval hm hlimit => ?_, fun hdvd => ?_, ?_, fun h hh => ?_⟩
  · have hstart : s.start event count interval = s.register event count interval := by
      rw [start, if_neg (by simp [hm])]
    rw [hstart, register_of_limit hlimit]
    exact ⟨rfl, rfl, rfl, rfl, rfl⟩
  · obtain ⟨slots, hcas, hc, -⟩ := Wheel.cascades_spec hI.placed hdvd
    exact ⟨_, hcas, hc⟩
  · obtain ⟨handed, slots, ha⟩ := hI.advanced
    exact ⟨handed, _, ha.advance_eq, ha.all⟩
  · obtain ⟨s', hs', -⟩ := hs.timely.executes hI hh
    exact ⟨s', hs'⟩

/-- The limit on a manager that holds one node. -/
theorem limit_at_the_door_start :
    let s := init.call (.start (.given 0) 1 300)
    RefusesBeyondLimit s ∧
      (2 ^ timerNearBits ∣ s.tickTime →
        ∃ w, s.wheel.cascades = .ok w ∧ contents w.slots = contents s.slots) ∧
      (∃ handed s₁, s.advance = .ok (handed, s₁) ∧
        contents s₁.slots + (handed : Multiset NodeId) = contents s.slots) ∧
      ∀ h : Handlers, h.All Call.Positive → ∃ s', s.executes h = .ok s' :=
  limit_at_the_door (reachable_init.call (by simp [Call.Positive]))

end TimerManager

end Timer

end MToolkit

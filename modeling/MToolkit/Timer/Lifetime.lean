import MToolkit.Timer.Stop

/-!
# The life of a registration

From its `Start` on, whatever else is done with the manager, a node calls `OnTrigger` no more often
than its count says, and then `OnStop` once and for all: with `forced` exactly if triggers were
left. It does so when the manager is destroyed at the latest
(`MToolkit.Timer.TimerManager.ends_once`). As for a single stop, this takes that no last trigger
destroys its own event.

| the node         | its callbacks                     | its count              |
| ---------------- | --------------------------------- | ---------------------- |
| is valid         | no stop                           | the triggers left      |
| is in `OnTrigger` | no stop, and this trigger        | one more               |
| is invalid       | triggers and pauses, then a stop  |                        |
-/

namespace MToolkit

namespace Timer

open Buckets Fallible Lts

namespace TimerManager

variable {s s' : TimerManager} {h : Handlers} {x y : NodeId} {p : List NodeId} {n k : ℕ}

/-- **A node of count `n` has ended**: it has stopped once, after all its other callbacks, and this
was forced exactly if triggers were left. -/
def Ended (n : ℕ) (x : NodeId) (s : TimerManager) : Prop :=
  ∃ before forced, s.callbacks x = before ++ [.onStop x forced] ∧
    (∀ forced', .onStop x forced' ∉ before) ∧ before.count (.onTrigger x) ≤ n ∧
      (forced = false ↔ before.count (.onTrigger x) = n)

/-- **The life of a node** of count `n`, which is in `k` calls of `OnTrigger`. -/
inductive Lifetime (n k : ℕ) (x : NodeId) (s : TimerManager) : Prop
  | lives : (s.node x).isValid = true → (∀ forced, .onStop x forced ∉ s.callbacks x) →
      (s.callbacks x).count (.onTrigger x) + (s.node x).count.toNat = n + k →
      k < (s.node x).count.toNat → Lifetime n k x s
  | ended : (s.node x).isValid = false → Ended n x s → Lifetime n k x s

theorem Ended.congr (hs : Ended n x s) (h : s'.callbacks x = s.callbacks x) : Ended n x s' := by
  rw [Ended, h]
  exact hs

/-- A life goes on where the flag, the count and the callbacks are the same. -/
theorem Lifetime.congr (hs : Lifetime n k x s) (hv : (s'.node x).isValid = (s.node x).isValid)
    (hc : (s'.node x).count = (s.node x).count) (h : s'.callbacks x = s.callbacks x) :
    Lifetime n k x s' := by
  cases hs with
  | lives hvalid hnone hsum hlt =>
    exact .lives (hv.trans hvalid) (by rwa [h]) (by rwa [h, hc]) (by rwa [hc])
  | ended hinvalid hended => exact .ended (hv.trans hinvalid) (hended.congr h)

/-- The life of a valid node **goes on**. -/
theorem Lifetime.alive (hs : Lifetime n k x s) (hv : (s.node x).isValid = true) :
    (∀ forced, .onStop x forced ∉ s.callbacks x) ∧
      (s.callbacks x).count (.onTrigger x) + (s.node x).count.toNat = n + k ∧
      k < (s.node x).count.toNat := by
  cases hs with
  | lives _ hnone hsum hlt => exact ⟨hnone, hsum, hlt⟩
  | ended hinvalid =>
    rw [hv] at hinvalid
    cases hinvalid

theorem Lifetime.spared (hs : Lifetime n k x s) (h : Spared x s s') : Lifetime n k x s' :=
  hs.congr (by rw [h.node]) (by rw [h.node]) h.callbacks

/-! ### The stop -/

/-- What node `x` appends to the log is what it appends to its callbacks. -/
theorem callbacks_append {cs : List Callback} (hlog : s'.log = s.log ++ cs)
    (hcs : ∀ c ∈ cs, c.node = x) : s'.callbacks x = s.callbacks x ++ cs := by
  have hall : cs.filter (fun c => decide (c.node = x)) = cs :=
    List.filter_eq_self.mpr fun c hc => by simpa using hcs c hc
  rw [callbacks, callbacks, hlog, List.filter_append, hall]

/-- **A forced stop** leaves triggers over. -/
theorem Lifetime.forced (hs : Lifetime n k x s) (hv : (s.node x).isValid = true) {node : TimerNode}
    (hinvalid : node.isValid = false) :
    Lifetime n k x
      { s with node := Function.update s.node x node, log := s.log ++ [.onStop x true] } := by
  obtain ⟨hnone, hsum, hlt⟩ := hs.alive hv
  refine .ended (by simpa using hinvalid) ⟨s.callbacks x, true, ?_, hnone, by omega, ?_⟩
  · exact callbacks_append rfl (by simp [Callback.node])
  · simp only [Bool.true_eq_false, false_iff]
    omega

/-! ### Calls -/

/-- **A call keeps the life of a node going**, or forces its end. -/
theorem Effect.lifetime {c : Call} (heff : Effect s c s') (hI : Inv p s) (hx : x < s.nextNode)
    (hs : Lifetime n k x s) : Lifetime n k x s' := by
  by_cases hfree : ¬c.Touches (s.node x).event ∨ (s.node x).isValid = false
  · exact hs.spared (heff.spared hx (fun hm => (hI.keyed hm).1) hfree)
  rw [not_or, not_not, Bool.not_eq_false] at hfree
  obtain ⟨htouch, hv⟩ := hfree
  -- the node that is flagged is that of the event
  have hlive := hI.live x hv
  cases heff with
  | same => exact hs
  | @destroyed event y hm =>
    obtain rfl : event = (s.node x).event := htouch
    obtain rfl : x = y := Option.some.inj (hlive.symm.trans hm)
    exact hs.forced hv rfl
  | @paused event y hm =>
    obtain rfl : event = (s.node x).event := htouch
    obtain rfl : x = y := Option.some.inj (hlive.symm.trans hm)
    obtain ⟨hnone, hsum, hlt⟩ := hs.alive hv
    have hpause {t : TimerManager} (hlog : t.log = s.log ++ [.onPause x]) :
        t.callbacks x = s.callbacks x ++ [.onPause x] :=
      callbacks_append hlog (by simp [Callback.node])
    refine .lives (by simpa using hv) (fun forced => ?_) ?_ (by simpa using hlt)
    · rw [hpause rfl]
      simpa using hnone forced
    · rw [hpause rfl]
      simpa using hsum
  | refused hc => rcases hc with rfl | ⟨rfl, -⟩ <;> exact htouch.elim
  | started hc => rcases hc with rfl | ⟨rfl, -⟩ <;> exact htouch.elim

/-- **The calls of a handler** do. -/
theorem Inv.calls_lifetime (hI : Inv p s) (hx : x < s.nextNode) (hs : Lifetime n k x s)
    (cs : List Call) : Lifetime n k x (s.calls cs) := by
  refine (hI.preserves_calls (I := fun t => x < t.nextNode ∧ Lifetime n k x t)
    (P := fun _ => True) ?_ (fun _ _ => trivial) ⟨hx, hs⟩).2.2
  rintro t c t' - hIt ⟨hxt, ht⟩ heff
  exact ⟨hxt.trans_le heff.frame.nextNode, heff.lifetime hIt hxt ht⟩

/-! ### Visits -/

/-- **A visit of another node.** -/
theorem Lifetime.visit_of_ne (hI : Inv (y :: p) s) (hx : x < s.nextNode) (hxy : x ≠ y)
    (hs : Lifetime n 0 x s) (hvisit : s.visit h y = .ok s') : Lifetime n 0 x s' := by
  cases visit_cases hvisit with
  | dropped => exact hs
  | erased => exact hs.congr rfl rfl rfl
  | @triggered t e slot hv hp ht =>
    subst ht
    have htrigger : x < (s.trigger h y).nextNode ∧ Lifetime n 0 x (s.trigger h y) := by
      refine hI.preserves_trigger (I := fun t => x < t.nextNode ∧ Lifetime n 0 x t)
        (P := fun _ => True) hv (fun _ _ _ _ => trivial) ?_ ?_ ?_ ?_ ⟨hx, hs⟩
      · exact fun hs => ⟨hs.1, hs.2.spared (spared_update hxy (by simp [Callback.node]))⟩
      · exact fun hs => ⟨hs.1, hs.2.spared (spared_update hxy (by simp [Callback.node]))⟩
      · rintro t c t' - hIt ⟨hxt, ht⟩ heff
        exact ⟨hxt.trans_le heff.frame.nextNode, heff.lifetime hIt hxt ht⟩
      · refine fun _ hs => ⟨hs.1, hs.2.spared (spared_update hxy fun c hc => ?_)⟩
        split_ifs at hc
        · rw [List.mem_singleton.mp hc]
          rfl
        · cases hc
    exact htrigger.2.congr (by simp [hxy]) (by simp [hxy]) rfl

/-- `OnTrigger` is called **before the count goes down**: the trigger is a call that the node is in,
or one more than it was given. -/
theorem Lifetime.raise (hs : Lifetime n 0 x s) (hv : (s.node x).isValid = true) {n' k' : ℕ}
    (hone : n' + k' = n + 1) (hlt : k' < (s.node x).count.toNat) :
    Lifetime n' k' x (s.raise x) := by
  obtain ⟨hnone, hsum, -⟩ := hs.alive hv
  refine .lives (by simpa using hv) (by simpa using hnone) ?_ (by simpa using hlt)
  simp only [raise_callbacks_self, List.count_append, List.count_singleton_self, raise_node_self]
  omega

/-- **A visit of the node**: its count goes down by one for one trigger, and the last of these is
followed by a stop that is not forced. -/
theorem Lifetime.visit (hI : Inv (x :: p) s) (hlast : LastTriggerSpares h s x)
    (hs : Lifetime n 0 x s) (hvisit : s.visit h x = .ok s') : Lifetime n 0 x s' := by
  cases visit_cases hvisit with
  | dropped => exact hs
  | erased => exact hs.congr rfl rfl rfl
  | @triggered t e slot hv hp ht =>
    subst ht
    suffices htrigger : Lifetime n 0 x (s.trigger h x) from
      htrigger.congr (by simp) (by simp) rfl
    obtain ⟨-, -, hlt⟩ := hs.alive hv
    have hc : (s.node x).count ≠ 0 := fun hzero => by simp [hzero] at hlt
    rw [trigger_of_count hv hc]
    set cs := h (s.raise x) (s.node x).event with hcs
    have hx : x < (s.raise x).nextNode := hI.lt (by simp)
    have hcount : (((s.raise x).calls cs).node x).count = (s.node x).count := by
      rw [((calls_frame hI.raise.agree cs).node x hx).count, raise_node_self]
    have hvraise : ((s.raise x).node x).isValid = true := by simpa using hv
    by_cases h1 : (s.node x).count = 1
    · -- the last trigger, which leaves the node valid
      have hraise : Lifetime (n + 1) 0 x (s.raise x) := hs.raise hv rfl hlt
      have hvalid : (((s.raise x).calls cs).node x).isValid = true := by
        refine hI.raise.calls_isValid hx hvraise ?_
        rw [raise_node_self]
        exact hlast hv hp h1
      obtain ⟨hnone', hsum', -⟩ := (hI.raise.calls_lifetime hx hraise cs).alive hvalid
      rw [hcount, h1, UInt64.toNat_one] at hsum'
      refine .ended (by simp [hcount, h1]) ⟨_, false, ?_, hnone', by omega, ?_⟩
      · rw [settle_callbacks_self, hcount, if_pos h1]
      · simp only [true_iff]
        omega
    · have htwo : 1 < (s.node x).count.toNat := by
        have hone : (s.node x).count.toNat ≠ 1 := fun hone => h1 (UInt64.toNat_inj.mp hone)
        omega
      have hraise : Lifetime n 1 x (s.raise x) := hs.raise hv rfl htwo
      have hsettle : (((s.raise x).calls cs).settle x).callbacks x =
          ((s.raise x).calls cs).callbacks x := by
        rw [settle_callbacks_self, hcount, if_neg h1, List.append_nil]
      cases hI.raise.calls_lifetime hx hraise cs with
      | ended hinvalid hended => exact .ended (by simp [hinvalid]) (hended.congr hsettle)
      | lives hvalid hnone' hsum' =>
        have hsub := toNat_sub_one hc
        refine .lives (by simp [hvalid, hcount, h1]) (by rwa [hsettle]) ?_ ?_
        · rw [hsettle, settle_node_self]
          rw [hcount] at hsum'
          simp only [hcount]
          omega
        · rw [settle_node_self]
          simp only [hcount]
          omega

theorem Lifetime.executes (hI : Inv [] s) (hx : x < s.nextNode) (hs : Lifetime n 0 x s)
    (hex : s.executes h = .ok s') (hcareful : Careful s (.executes h)) :
    x < s'.nextNode ∧ Lifetime n 0 x s' := by
  refine (hI.preserves_executes (I := fun l t => (x < t.nextNode ∧ Lifetime n 0 x t) ∧
    LoopAll (LastTriggerSpares h) h l t) hex ?_ ?_).1
  · rintro y p t t' hIt hlt ⟨⟨hxt, ht⟩, hspares, hloop⟩ hv
    obtain ⟨-, -, hpass⟩ := hIt.visit_step hlt hv
    refine ⟨⟨hxt.trans_le hpass.nextNode, ?_⟩, hloop t' hv⟩
    by_cases hxy : x = y
    · subst hxy
      exact ht.visit hIt hspares hv
    · exact ht.visit_of_ne hIt hxt hxy hv
  · exact fun ha => ⟨⟨hx, hs.congr rfl rfl rfl⟩, hcareful _ _ ha.advance_eq⟩

/-- **A careful run** keeps the life of a node going, or ends it. -/
theorem Lifetime.run (hI : Inv [] s) (hx : x < s.nextNode) (hs : Lifetime n 0 x s) {ls : List Label}
    (hrun : Run CarefulStep s ls s') : x < s'.nextNode ∧ Lifetime n 0 x s' := by
  refine (hrun.invariant (I := fun u => Inv [] u ∧ x < u.nextNode ∧ Lifetime n 0 x u) ?_
    ⟨hI, hx, hs⟩).2
  rintro u l u' ⟨hIu, hxu, hu⟩ ⟨hstep, hcareful⟩
  refine ⟨hstep.inv hIu, ?_⟩
  cases hstep with
  | call c =>
    have heff := hIu.agree.effect c
    exact ⟨hxu.trans_le heff.frame.nextNode, heff.lifetime hIu hxu hu⟩
  | executes hex => exact hu.executes hIu hxu hex hcareful

/-! ### The destructor of the manager -/

theorem Lifetime.release (hs : Lifetime n k x s) (y : NodeId) : Lifetime n k x (s.release y) := by
  rw [TimerManager.release]
  split_ifs
  · exact hs
  · rcases hv : (s.node y).isValid with _ | _
    · rwa [perform_eq_self (by simp [TimerNode.destroy, hv])]
    · simp only [perform, TimerNode.destroy, hv, if_true]
      by_cases hxy : x = y
      · subst hxy
        exact hs.forced hv rfl
      · exact hs.spared (spared_update hxy (by simp [Callback.node]))

/-- **The slots and the maps are gone.** -/
structure Cleared (s : TimerManager) : Prop where
  slots : ∀ slot, s.slots slot = []
  pauseMap : ∀ event, s.pauseMap event = none
  normalMap : ∀ event, s.normalMap event = none
  managerMap : ∀ event, s.managerMap event = none

theorem Cleared.not_holds (hs : Cleared s) (x : NodeId) : ¬s.Holds x := by
  simp [Holds, hs.slots, hs.pauseMap, hs.normalMap, hs.managerMap]

/-- The destructor of a node that nothing points to **makes it invalid**. -/
theorem Cleared.release (hs : Cleared s) (y : NodeId) : Cleared (s.release y) ∧
    ∀ x, ((s.release y).node x).isValid = true → x ≠ y ∧ (s.node x).isValid = true := by
  rw [TimerManager.release, if_neg (hs.not_holds y)]
  refine ⟨⟨hs.slots, hs.pauseMap, hs.normalMap, hs.managerMap⟩, fun x hx => ?_⟩
  by_cases hxy : x = y
  · subst hxy
    rcases hv : (s.node x).isValid with _ | _ <;> simp [perform, TimerNode.destroy, hv] at hx
  · exact ⟨hxy, by simpa [perform, hxy] using hx⟩

theorem Cleared.releases (l : List NodeId) (hs : Cleared s) {x : NodeId}
    (hx : ((l.foldl TimerManager.release s).node x).isValid = true) :
    x ∉ l ∧ (s.node x).isValid = true := by
  induction l generalizing s with
  | nil => exact ⟨List.not_mem_nil, hx⟩
  | cons y l ih =>
    obtain ⟨hs', hvalid⟩ := hs.release y
    obtain ⟨hxl, hxv⟩ := ih hs' hx
    obtain ⟨hxy, hv⟩ := hvalid x hxv
    exact ⟨by simp [hxy, hxl], hv⟩

theorem Lifetime.releases (l : List NodeId) (hs : Lifetime n k x s) :
    Lifetime n k x (l.foldl TimerManager.release s) := by
  induction l generalizing s with
  | nil => exact hs
  | cons y l ih => exact ih (hs.release y)

/-- **The destructor of the manager** ends every node that has been made. -/
theorem Lifetime.shutdown (hx : x < s.nextNode) (hs : Lifetime n k x s) : Ended n x s.shutdown := by
  have hcleared : Cleared { s with
      slots := fun _ => []
      pauseMap := fun _ => none
      normalMap := fun _ => none
      managerMap := fun _ => none } := ⟨fun _ => rfl, fun _ => rfl, fun _ => rfl, fun _ => rfl⟩
  have hlife : Lifetime n k x s.shutdown := by
    refine Lifetime.releases (List.range s.nextNode) ?_
    exact hs.congr rfl rfl rfl
  cases hlife with
  | lives hvalid => exact absurd (List.mem_range.mpr hx) (hcleared.releases _ hvalid).1
  | ended _ hended => exact hended

/-! ### From `Start` on -/

theorem call_of_starts {c : Call} {event : Event} {count : Int64} {interval : ℤ}
    (hc : s.Starts c event count interval) (hm : s.managerMap event = none) :
    s.call c = (s.register event count interval).2 := by
  rcases hc with rfl | ⟨rfl, rfl⟩
  · rw [call, start, if_neg (by simp [hm])]
  · rw [call, startFunction, if_pos hm]

/-- **A `Start`** begins a life, or ends it at once where it refuses the interval. -/
theorem Inv.lifetime_start (hI : Inv [] s) {c : Call} {event : Event} {count : Int64} {interval : ℤ}
    (hc : s.Starts c event count interval) (hm : s.managerMap event = none) (hcount : count ≠ 0) :
    s.nextNode < (s.call c).nextNode ∧
      Lifetime count.toUInt64.toNat 0 s.nextNode (s.call c) := by
  have hnone := hI.callbacks_fresh (Nat.le_refl s.nextNode)
  have hpos : count.toUInt64.toNat ≠ 0 := by
    intro hzero
    have hword : count.toUInt64 = 0 := UInt64.toNat_inj.mp hzero
    exact hcount (congrArg Int64.ofUInt64 hword)
  rw [call_of_starts hc hm]
  rcases hslot : addSlot s.tickTime (interval + s.tickTime) with _ | slot
  · rw [register_of_limit (by simpa using addSlot_eq_none.mp hslot)]
    refine ⟨Nat.lt_succ_self _, .ended (by simp) ⟨s.callbacks s.nextNode, true, ?_, ?_⟩⟩
    · exact callbacks_append rfl (by simp [Callback.node])
    · simpa [hnone] using hpos.symm
  · rw [register_of_slot hm (hI.agree.normal ▸ hm) hslot]
    refine ⟨Nat.lt_succ_self _, .lives (by simp [TimerNode.make]) ?_ ?_ ?_⟩
    · change ∀ forced, _ ∉ s.callbacks s.nextNode
      simp [hnone]
    · change (s.callbacks s.nextNode).count _ + _ = _
      simp [hnone, TimerNode.make]
    · simpa [TimerNode.make, Nat.pos_iff_ne_zero] using hpos

/-- **Every registration ends once.** In every reachable state, let an event that is not registered
be started with a count other than zero. In every run after it in which no last trigger of a node
destroys its own event, whatever else the calls and the handlers do, the new node is valid, has not
called `OnStop`, and has been triggered as often as its count has gone down; or it has called
`OnStop` once, after all its other callbacks, and unless all its triggers have been made this was
forced. When the manager is destroyed, it has. -/
theorem ends_once {P : Call → Prop} (hs : Reachable P s) {c : Call} {event : Event} {count : Int64}
    {interval : ℤ} (hc : s.Starts c event count interval) (hm : s.managerMap event = none)
    (hcount : count ≠ 0) {ls : List Label} {u : TimerManager}
    (hrun : Run CarefulStep (s.call c) ls u) :
    Lifetime count.toUInt64.toNat 0 s.nextNode u ∧
      Ended count.toUInt64.toNat s.nextNode u.shutdown := by
  have hI := hs.inv
  obtain ⟨hlt, hstart⟩ := hI.lifetime_start hc hm hcount
  obtain ⟨hx, hu⟩ := hstart.run ((Step.call c).inv hI) hlt hrun
  exact ⟨hu, hu.shutdown hx⟩

/-- A timer of two counts that is paused, and destroyed before its first trigger. -/
theorem ends_once_destroyed :
    ∃ u, Run CarefulStep (init.call (.start (.given 0) 2 5))
        [.call (.pause (.given 0)), .call (.destroy (.given 0))] u ∧
      u.callbacks 0 = [.onPause 0, .onStop 0 true] ∧ Ended 2 0 u.shutdown := by
  have hrun : Run CarefulStep (init.call (.start (.given 0) 2 5))
      [.call (.pause (.given 0)), .call (.destroy (.given 0))] _ :=
    .cons ⟨.call _, trivial⟩ (.single ⟨.call _, trivial⟩)
  exact ⟨_, hrun, rfl, (ends_once (P := fun _ => True) reachable_init (.inl rfl) rfl (by decide)
    hrun).2⟩

end TimerManager

end Timer

end MToolkit

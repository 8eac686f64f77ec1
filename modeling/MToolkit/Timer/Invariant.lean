import MToolkit.Timer.Effect

/-!
# Maps and wheel agree

The invariant of a `TimerManager`, `MToolkit.Timer.TimerManager.Inv`: the maps, the
nodes and the slots describe the same registrations. It is stated for a state in
the middle of `Executes` too, with the list `p` of the nodes that have been swapped
out of the wheel and not yet been seen to: together with them the wheel holds every
registered node at most once, and the only registered nodes it lost are those it
dropped while they were paused.

The loop of `Executes` takes the nodes of `p` one by one, and each returns to the
wheel, is dropped, or leaves the maps (`MToolkit.Timer.TimerManager.Inv.visit`).
Calls keep the invariant whatever `p` is, so a handler may make them in the middle
of the loop.
-/

namespace MToolkit

namespace Timer

open Buckets Fallible Lts

namespace TimerManager

/-- **The invariant**, with the nodes `p` out of the wheel and still to be seen
to. -/
structure Inv (p : List NodeId) (s : TimerManager) : Prop where
  /-- Every node of the wheel is in a slot it may be in. -/
  placed : s.wheel.Ok
  /-- No node is held twice. -/
  nodup : (contents s.slots + (p : Multiset NodeId)).Nodup
  /-- Every node held is the one registered for its event. -/
  registered : ∀ x ∈ contents s.slots + (p : Multiset NodeId),
    s.managerMap (s.node x).event = some x
  agree : s.Agree
  /-- A node is registered under its own event. -/
  keyed : ∀ {event x}, s.managerMap event = some x → (s.node x).event = event ∧ x < s.nextNode
  limit : ∀ {event x}, s.managerMap event = some x → (s.node x).interval ≤ 0xffffffff
  /-- A registered node that is not held was dropped by a visit while paused. -/
  dropped : ∀ {event x}, s.managerMap event = some x →
    x ∉ contents s.slots + (p : Multiset NodeId) →
      (s.node x).isPause = true ∧ (s.node x).expire < s.tickTime
  /-- Every valid node is registered. -/
  live : ∀ x, (s.node x).isValid = true → s.managerMap (s.node x).event = some x
  /-- Only nodes that have been made have called back. -/
  logged : ∀ c ∈ s.log, c.node < s.nextNode

/-- The node in hand, seen apart from the rest of the list. -/
theorem held_cons {m : Multiset NodeId} {x : NodeId} {p : List NodeId} :
    m + ((x :: p : List NodeId) : Multiset NodeId) = x ::ₘ (m + (p : Multiset NodeId)) := by
  rw [← Multiset.cons_coe, Multiset.add_cons]

theorem inv_init : Inv [] init := by
  refine ⟨fun slot x hx => by simp [init, wheel] at hx, by simp [init], fun x hx => ?_,
    ⟨rfl, fun _ => rfl⟩, fun h => ?_, fun h => ?_, fun h => ?_, fun x hv => ?_, fun c hc => ?_⟩
  · simp [init] at hx
  all_goals simp_all [init]

variable {s s' : TimerManager} {p : List NodeId}

theorem Inv.lt (h : Inv p s) {x : NodeId} (hx : x ∈ contents s.slots + (p : Multiset NodeId)) :
    x < s.nextNode :=
  (h.keyed (h.registered x hx)).2

theorem Inv.notMem_slots (h : Inv p s) {x : NodeId} (hx : x ∈ p) : x ∉ contents s.slots :=
  fun hc => Multiset.disjoint_left.mp (Multiset.nodup_add.mp h.nodup).2.2 hc hx

/-- The node in hand is held nowhere else. -/
theorem Inv.notMem_rest {x : NodeId} (h : Inv (x :: p) s) : x ∉ contents s.slots ∧ x ∉ p := by
  obtain ⟨hfresh, -⟩ := Multiset.nodup_cons.mp (held_cons ▸ h.nodup)
  simpa using hfresh

/-- Two registered nodes of one event are the same node. -/
theorem event_inj {x y : NodeId} (hx : s.managerMap (s.node x).event = some x)
    (hy : s.managerMap (s.node y).event = some y) (he : (s.node x).event = (s.node y).event) :
    x = y := by
  rw [he] at hx
  exact Option.some.inj (hx.symm.trans hy)

theorem Inv.lt_of_registered (h : Inv p s) {event : Event} {x : NodeId}
    (hm : s.managerMap event = some x) : x < s.nextNode := (h.keyed hm).2

/-- A node still to be made has not called back. -/
theorem Inv.callbacks_fresh (h : Inv p s) {x : NodeId} (hx : s.nextNode ≤ x) :
    s.callbacks x = [] := by
  refine List.filter_eq_nil_iff.mpr fun c hc => ?_
  simpa using ((h.logged c hc).trans_le hx).ne

/-- Appending callbacks of nodes that have been made. -/
theorem logged_append {cs : List Callback} {k : NodeId} (hcs : ∀ c ∈ cs, c.node < k) :
    ∀ c ∈ s.log ++ cs, c ∈ s.log ∨ c.node < k :=
  fun c hc => (List.mem_append.mp hc).imp_right (hcs c)

/-! ### Changing one node -/

/-- **Changing a node in place** keeps the invariant: its event stays, it does not
become valid, and either it is out of the wheel or its expiry stays and its pause
flag is not cleared. -/
theorem Inv.setNode (h : Inv p s) {y : NodeId} {n : TimerNode} {log : List Callback}
    (hevent : n.event = (s.node y).event) (hint : n.interval = (s.node y).interval)
    (hvalid : n.isValid = true → (s.node y).isValid = true)
    (hplace : y ∈ p ∨ (n.expire = (s.node y).expire ∧
      ((s.node y).isPause = true → n.isPause = true)))
    (hlog : ∀ c ∈ log, c ∈ s.log ∨ c.node < s.nextNode) :
    Inv p { s with node := Function.update s.node y n, log := log } := by
  have hev : ∀ x, (Function.update s.node y n x).event = (s.node x).event := by
    intro x
    by_cases hxy : x = y
    · subst hxy
      simpa using hevent
    · simp [hxy]
  refine ⟨fun slot x hx => ?_, h.nodup, fun x hx => ?_, ⟨h.agree.normal, h.agree.pause⟩,
    fun {event x} hm => ?_, fun {event x} hm => ?_, fun {event x} hm hx => ?_, fun x hv => ?_,
    fun c hc => (hlog c hc).elim (h.logged c) id⟩
  -- in a slot there are only nodes whose expiry stays
  · have hexp : (Function.update s.node y n x).expire = (s.node x).expire := by
      by_cases hxy : x = y
      · subst hxy
        rcases hplace with hp | hp
        · exact absurd (mem_contents.mpr ⟨slot, hx⟩) (h.notMem_slots hp)
        · simpa using hp.1
      · simp [hxy]
    have := h.placed slot x hx
    simpa [wheel, hexp] using this
  · simpa [hev] using h.registered x hx
  · simpa [hev] using h.keyed hm
  · by_cases hxy : x = y
    · subst hxy
      simpa [hint] using h.limit hm
    · simpa [hxy] using h.limit hm
  · by_cases hxy : x = y
    · subst hxy
      rcases hplace with hp | ⟨he, hpause⟩
      · exact absurd (Multiset.mem_add.mpr (.inr hp)) hx
      · obtain ⟨h₁, h₂⟩ := h.dropped hm hx
        simpa [he] using ⟨hpause h₁, h₂⟩
    · simpa [hxy] using h.dropped hm hx
  · simp only [hev]
    by_cases hxy : x = y
    · subst hxy
      exact h.live x (hvalid (by simpa using hv))
    · exact h.live x (by simpa [hxy] using hv)

/-! ### Calls -/

/-- The next node to be made is not held yet. -/
theorem Inv.fresh (h : Inv p s) : s.nextNode ∉ contents s.slots + (p : Multiset NodeId) :=
  fun hx => (h.lt hx).false

/-- **A refused `Start`** leaves behind an invalid node that nothing points to. -/
theorem Inv.refused (h : Inv p s) {n : TimerNode} {log : List Callback} (hn : n.isValid = false)
    (hlog : ∀ c ∈ log, c ∈ s.log ∨ c.node < s.nextNode + 1) :
    Inv p { s with
      node := Function.update s.node s.nextNode n, nextNode := s.nextNode + 1, log := log } := by
  have hold : ∀ {x}, x < s.nextNode → Function.update s.node s.nextNode n x = s.node x :=
    fun hx => Function.update_of_ne hx.ne _ _
  refine ⟨fun slot x hx => ?_, h.nodup, fun x hx => ?_, ⟨h.agree.normal, h.agree.pause⟩,
    fun {event x} hm => ?_, fun {event x} hm => ?_, fun {event x} hm hx => ?_, fun x hv => ?_,
    fun c hc => (hlog c hc).elim (fun hc => Nat.lt_succ_of_lt (h.logged c hc)) id⟩
  · have hlt := h.lt (Multiset.mem_add.mpr (.inl (mem_contents.mpr ⟨slot, hx⟩)))
    simpa [wheel, hold hlt] using h.placed slot x hx
  · simpa [hold (h.lt hx)] using h.registered x hx
  · obtain ⟨he, hlt⟩ := h.keyed hm
    exact ⟨by simpa [hold hlt] using he, hlt.trans (Nat.lt_succ_self _)⟩
  · simpa [hold (h.keyed hm).2] using h.limit hm
  · simpa [hold (h.keyed hm).2] using h.dropped hm hx
  · by_cases hx : x = s.nextNode
    · subst hx
      simp [hn] at hv
    · simpa [hx] using h.live x (by simpa [hx] using hv)

/-- **A successful `Start`** adds one node to the maps and to the wheel, whenever the node is
to expire. -/
theorem Inv.started (h : Inv p s) {event : Event} {count : Int64} {interval expire : ℤ}
    {slot : Slot} (hm : s.managerMap event = none) (hint : interval ≤ 0xffffffff)
    (hslot : addSlot s.tickTime expire = some slot) :
    Inv p { s with
      node := Function.update s.node s.nextNode (.make event count expire interval)
      nextNode := s.nextNode + 1
      slots := push s.slots slot s.nextNode
      managerMap := Function.update s.managerMap event (some s.nextNode)
      normalMap := Function.update s.normalMap event (some s.nextNode) } := by
  set n := TimerNode.make event count expire interval with hn
  have hold : ∀ {x}, x < s.nextNode → Function.update s.node s.nextNode n x = s.node x :=
    fun hx => Function.update_of_ne hx.ne _ _
  -- an event that finds a node is another event
  have hne : ∀ {event' x}, s.managerMap event' = some x → event' ≠ event := by
    rintro event' x he rfl
    simp [hm] at he
  refine ⟨fun slot' x hx => ?_, ?_, fun x hx => ?_, ⟨by simp only [h.agree.normal], h.agree.pause⟩,
    fun {event' x} he => ?_, fun {event' x} he => ?_, fun {event' x} he hx => ?_, fun x hv => ?_,
    fun c hc => Nat.lt_succ_of_lt (h.logged c hc)⟩
  · rcases mem_push.mp hx with hx | ⟨rfl, rfl⟩
    · have hlt := h.lt (Multiset.mem_add.mpr (.inl (mem_contents.mpr ⟨slot', hx⟩)))
      simpa [wheel, hold hlt] using h.placed slot' x hx
    · simpa [wheel, hn, TimerNode.make] using (placed_of_addSlot hslot).1
  · rw [contents_push, Multiset.cons_add, Multiset.nodup_cons]
    exact ⟨h.fresh, h.nodup⟩
  · rw [contents_push, Multiset.cons_add, Multiset.mem_cons] at hx
    rcases hx with rfl | hx
    · simp [hn, TimerNode.make]
    · have hreg := h.registered x hx
      simpa [hold (h.lt hx), hne hreg] using hreg
  · rcases PartialMap.update_eq_some.mp he with ⟨rfl, rfl⟩ | ⟨-, he'⟩
    · simp [hn, TimerNode.make]
    · obtain ⟨hk, hlt⟩ := h.keyed he'
      exact ⟨by simpa [hold hlt] using hk, hlt.trans (Nat.lt_succ_self _)⟩
  · rcases PartialMap.update_eq_some.mp he with ⟨rfl, rfl⟩ | ⟨-, he'⟩
    · simpa [hn, TimerNode.make] using hint
    · simpa [hold (h.keyed he').2] using h.limit he'
  · rw [contents_push, Multiset.cons_add, Multiset.mem_cons, not_or] at hx
    rcases PartialMap.update_eq_some.mp he with ⟨-, rfl⟩ | ⟨-, he'⟩
    · exact absurd rfl hx.1
    · simpa [hold (h.keyed he').2] using h.dropped he' hx.2
  · by_cases hx : x = s.nextNode
    · subst hx
      simp [hn, TimerNode.make]
    · have hreg := h.live x (by simpa [hx] using hv)
      simpa [hx, hne hreg] using hreg

/-- **Every call keeps the invariant.** -/
theorem Effect.inv {c : Call} (heff : Effect s c s') (h : Inv p s) : Inv p s' := by
  cases heff with
  | same => exact h
  | destroyed hm =>
    exact h.setNode rfl rfl (by simp) (.inr ⟨rfl, id⟩)
      (logged_append (by simpa [Callback.node] using h.lt_of_registered hm))
  | paused hm =>
    exact h.setNode rfl rfl id (.inr ⟨rfl, by simp⟩)
      (logged_append (by simpa [Callback.node] using h.lt_of_registered hm))
  | refused => exact h.refused rfl (logged_append (by simp [Callback.node]))
  | started _ hm hint hslot => exact h.started hm hint hslot

/-- **The rule for the calls of a handler**, the invariant being at hand. -/
theorem Inv.preserves_calls {I : TimerManager → Prop} {P : Call → Prop} (h : Inv p s)
    (hstep : ∀ {t c t'}, P c → Inv p t → I t → Effect t c t' → I t') {cs : List Call}
    (hcs : ∀ c ∈ cs, P c) (hs : I s) : Inv p (s.calls cs) ∧ I (s.calls cs) := by
  refine (calls_preserve (I := fun t => Inv p t ∧ I t) (P := P) ?_ cs h.agree ⟨h, hs⟩ hcs).2
  rintro t c t' hc - ⟨hIt, ht⟩ heff
  exact ⟨heff.inv hIt, hstep hc hIt ht heff⟩

theorem Inv.calls (h : Inv p s) (cs : List Call) : Inv p (s.calls cs) :=
  (h.preserves_calls (I := fun _ => True) (P := fun _ => True) (fun _ _ _ _ => trivial)
    (fun _ _ => trivial) trivial).1

/-! ### Between the wheel and the list of `Executes` -/

/-- Moving nodes between the slots and the list. -/
theorem Inv.move (h : Inv p s) {p' : List NodeId} {slots : Slot → List NodeId}
    (hc : contents slots + (p' : Multiset NodeId) = contents s.slots + (p : Multiset NodeId))
    (hok : Wheel.Ok { s.wheel with slots := slots }) : Inv p' { s with slots := slots } where
  placed := hok
  nodup := hc ▸ h.nodup
  registered := fun x hx => h.registered x (hc ▸ hx)
  agree := ⟨h.agree.normal, h.agree.pause⟩
  keyed := h.keyed
  limit := h.limit
  dropped := fun hm hx => h.dropped hm (hc ▸ hx)
  live := h.live
  logged := h.logged

/-- **`AddNode` of the node in hand** puts it back in the wheel. -/
theorem Inv.addNode {x : NodeId} (h : Inv (x :: p) s)
    (hx : (s.node x).expire - s.tickTime ≤ 0xffffffff) :
    ∃ slots, s.addNode x = .ok { s with slots := slots } ∧
      contents slots = x ::ₘ contents s.slots ∧ Inv p { s with slots := slots } := by
  obtain ⟨slots, hadd, hc, hok, -⟩ := Wheel.addNode_spec (x := x) h.placed hx
  refine ⟨slots, by simp [TimerManager.addNode, hadd], hc, h.move ?_ hok⟩
  rw [hc, held_cons, Multiset.cons_add]
  rfl

/-- **`Executes` at the start of its loop**: it has moved the clock and taken out the
nodes `handed`, those that have expired, all the others being in `slots`. -/
structure Advanced (s : TimerManager) (handed : List NodeId) (slots : Slot → List NodeId) :
    Prop where
  advance_eq : s.advance = .ok (handed, { s with tickTime := s.tickTime + 1, slots := slots })
  all : contents slots + (handed : Multiset NodeId) = contents s.slots
  inv : Inv handed { s with tickTime := s.tickTime + 1, slots := slots }
  mem_handed : ∀ x, x ∈ handed ↔ x ∈ contents s.slots ∧ (s.node x).expire ≤ s.tickTime
  mem_slots : ∀ x, x ∈ contents slots ↔ x ∈ contents s.slots ∧ s.tickTime < (s.node x).expire

/-- **`Executes` gets to its loop.** -/
theorem Inv.advanced (h : Inv [] s) : ∃ handed slots, Advanced s handed slots := by
  obtain ⟨handed, slots, hadv, hok, hh, hc⟩ := Wheel.advance_spec h.placed
  have hall : contents slots + (handed : Multiset NodeId) = contents s.slots := by
    have hsplit := Multiset.filter_add_not (fun x => s.wheel.expire x ≤ s.wheel.tickTime)
      (contents s.wheel.slots)
    simp only [not_le] at hsplit
    rw [hc, hh, add_comm, hsplit]
    rfl
  have hheld : contents slots + (handed : Multiset NodeId) =
      contents s.slots + (([] : List NodeId) : Multiset NodeId) := by simpa using hall
  refine ⟨handed, slots, by simp [TimerManager.advance, hadv]; rfl, hall, ?_, fun x => ?_,
    fun x => ?_⟩
  · refine ⟨hok, hheld ▸ h.nodup, fun x hx => h.registered x (hheld ▸ hx),
      ⟨h.agree.normal, h.agree.pause⟩, h.keyed, h.limit, fun hm hx => ?_, h.live, h.logged⟩
    obtain ⟨hpause, hlate⟩ := h.dropped hm (hheld ▸ hx)
    exact ⟨hpause, hlate.trans (lt_add_one _)⟩
  · rw [← Multiset.mem_coe, hh, Multiset.mem_filter]
    rfl
  · rw [hc, Multiset.mem_filter]
    rfl

end TimerManager

end Timer

end MToolkit

import MToolkit.Library.Fallible
import MToolkit.Timer.Manager
import MToolkit.Timer.WheelRefine

/-!
# What a call can do

`Start`, `Destroy`, `Pause` and `Resume`, once and for all: on a manager whose
`_pause` map is empty and whose two other maps agree – as they always are – a call
does one of five things, listed by `MToolkit.Timer.TimerManager.Effect`. Every
later statement about calls is a case analysis on it, and no proof unfolds a call
again.

Two consequences are drawn here. A call **keeps** every node that exists up to its
two flags, which only ever move one way (`MToolkit.Timer.TimerManager.Frame`). And
it **spares** the nodes it does not flag, leaving their fields, their callbacks and
their places in the wheel as they were (`MToolkit.Timer.TimerManager.Spared`).
-/

namespace MToolkit

namespace Timer

open Buckets

/-- The call is a `Pause`, a `Resume` or a `Destroy` of the event. -/
def Call.Touches (event : Event) : Call → Prop
  | .destroy event' => event' = event
  | .pause event' => event' = event
  | .resume event' => event' = event
  | _ => False

namespace TimerManager

/-- The call is a `Start` in either form, with this event, count and interval. -/
def Starts (s : TimerManager) (c : Call) (event : Event) (count : Int64) (interval : ℤ) : Prop :=
  c = .start event count interval ∨
    (c = .startFunction count interval ∧ event = .instanceTimerEvent s.nextNode)

/-- The five things a call can do. -/
inductive Effect (s : TimerManager) : Call → TimerManager → Prop
  /-- It finds nothing to do. -/
  | same (c : Call) : Effect s c s
  /-- `Destroy` marks a valid node. -/
  | destroyed {event : Event} {x : NodeId} :
      s.managerMap event = some x → (s.node x).isValid = true →
      Effect s (.destroy event)
        { s with
          node := Function.update s.node x { s.node x with isValid := false }
          log := s.log ++ [.onStop x true] }
  /-- `Pause` marks a valid node that is not paused. -/
  | paused {event : Event} {x : NodeId} :
      s.managerMap event = some x → (s.node x).isValid = true →
      Effect s (.pause event)
        { s with
          node := Function.update s.node x
            { s.node x with isPause := true, pauseTick := s.tickTime }
          log := s.log ++ [.onPause x] }
  /-- `Start` makes a node, `AddNode` throws, and the node is destroyed. -/
  | refused {c : Call} {event : Event} {count : Int64} {interval : ℤ} :
      s.Starts c event count interval → s.managerMap event = none → 0xffffffff < interval →
      Effect s c
        { s with
          node := Function.update s.node s.nextNode
            { TimerNode.make event count (interval + s.tickTime) interval with isValid := false }
          nextNode := s.nextNode + 1
          log := s.log ++ [.onStop s.nextNode true] }
  /-- `Start` registers a node. -/
  | started {c : Call} {event : Event} {count : Int64} {interval : ℤ} {slot : Slot} :
      s.Starts c event count interval → s.managerMap event = none → interval ≤ 0xffffffff →
      addSlot s.tickTime (interval + s.tickTime) = some slot →
      Effect s c
        { s with
          node := Function.update s.node s.nextNode
            (.make event count (interval + s.tickTime) interval)
          nextNode := s.nextNode + 1
          slots := push s.slots slot s.nextNode
          managerMap := Function.update s.managerMap event (some s.nextNode)
          normalMap := Function.update s.normalMap event (some s.nextNode) }

variable {s s' : TimerManager}

theorem addNode_of_slot {x : NodeId} (slot : Slot)
    (h : addSlot s.tickTime (s.node x).expire = some slot) :
    s.addNode x = .ok { s with slots := push s.slots slot x } := by
  simp [addNode, Wheel.addNode, wheel, h]

theorem addNode_of_limit {x : NodeId} (h : 0xffffffff < (s.node x).expire - s.tickTime) :
    s.addNode x = .error .intervalLimit := by
  simp [addNode, Wheel.addNode, wheel, addSlot_eq_none.mpr h]

/-- `register` beyond the limit: `AddNode` throws. -/
theorem register_of_limit {event : Event} {count : Int64} {interval : ℤ}
    (h : 0xffffffff < interval) :
    s.register event count interval = (.threw,
      { s with
        node := Function.update s.node s.nextNode
          { TimerNode.make event count (interval + s.tickTime) interval with isValid := false }
        nextNode := s.nextNode + 1
        log := s.log ++ [.onStop s.nextNode true] }) := by
  have hlimit : 0xffffffff < ((s.makeShared (.make event count (interval + s.tickTime)
      interval)).node s.nextNode).expire - s.tickTime := by
    simpa [makeShared, TimerNode.make] using h
  simp only [register, addNode_of_limit hlimit]
  simp [perform, makeShared, TimerNode.make, TimerNode.destroy]

/-- `register` within the limit, for an event in neither map. -/
theorem register_of_slot {event : Event} {count : Int64} {interval : ℤ} {slot : Slot}
    (hm : s.managerMap event = none) (hn : s.normalMap event = none)
    (h : addSlot s.tickTime (interval + s.tickTime) = some slot) :
    s.register event count interval = (.returned true,
      { s with
        node := Function.update s.node s.nextNode
          (.make event count (interval + s.tickTime) interval)
        nextNode := s.nextNode + 1
        slots := push s.slots slot s.nextNode
        managerMap := Function.update s.managerMap event (some s.nextNode)
        normalMap := Function.update s.normalMap event (some s.nextNode) }) := by
  have hslot : addSlot s.tickTime ((s.makeShared (.make event count (interval + s.tickTime)
      interval)).node s.nextNode).expire = some slot := by
    simpa [makeShared, TimerNode.make] using h
  simp only [register, addNode_of_slot slot hslot]
  simp [makeShared, PartialMap.insert_of_none, hm, hn]

/-- `register` of an event in neither map has an effect of a `Start`. -/
theorem effect_register {c : Call} {event : Event} {count : Int64} {interval : ℤ}
    (hc : s.Starts c event count interval) (hm : s.managerMap event = none)
    (hn : s.normalMap event = none) : Effect s c (s.register event count interval).2 := by
  rcases hs : addSlot s.tickTime (interval + s.tickTime) with _ | slot
  · have h : 0xffffffff < interval := by simpa using addSlot_eq_none.mp hs
    rw [register_of_limit h]
    exact .refused hc hm h
  · have h : interval ≤ 0xffffffff := by
      by_contra hlt
      rw [addSlot_eq_none.mpr (by omega)] at hs
      cases hs
    rw [register_of_slot hm hn hs]
    exact .started hc hm h hs

/-- A method that changes nothing and calls nothing. -/
theorem perform_eq_self {x : NodeId} {f : TimerNode → TimerNode × List Callback}
    (h : f (s.node x) = (s.node x, [])) : s.perform x f = s := by
  simp [perform, h]

theorem destroy_of_some {event : Event} {x : NodeId} (h : s.managerMap event = some x) :
    s.destroy event = s.perform x (TimerNode.destroy x) := by
  rw [destroy, h]

/-- **`Pause` leaves the maps as they were**: the entry it erases from `_normal` is
the one it inserts there. -/
theorem pause_of_some {event : Event} {x : NodeId} (h : s.normalMap event = some x) :
    s.pause event = (.returned true, s.perform x (TimerNode.pause x s.tickTime)) := by
  rw [pause, h]
  simp only [perform, PartialMap.insert_erase h]

/-- **What a call can do.** -/
theorem effect_call (hn : s.normalMap = s.managerMap) (hp : ∀ event, s.pauseMap event = none)
    (c : Call) : Effect s c (s.call c) := by
  cases c with
  | start event count interval =>
    rw [call, start]
    split_ifs with h
    · exact .same _
    · rw [not_not] at h
      exact effect_register (.inl rfl) h (hn ▸ h)
  | startFunction count interval =>
    rw [call, startFunction]
    split_ifs with h
    · exact effect_register (.inr ⟨rfl, rfl⟩) h (hn ▸ h)
    · exact .same _
  | destroy event =>
    rcases h : s.managerMap event with _ | x
    · simpa [call, destroy, h] using Effect.same _
    · rw [call, destroy_of_some h]
      by_cases hv : (s.node x).isValid
      · simpa [perform, TimerNode.destroy, hv] using Effect.destroyed h hv
      · rw [perform_eq_self (by simp [TimerNode.destroy, hv])]
        exact .same _
  | pause event =>
    rcases h : s.managerMap event with _ | x
    · simpa [call, pause, hn, h] using Effect.same _
    · rw [call, pause_of_some (hn ▸ h)]
      by_cases hv : (s.node x).isValid ∧ (s.node x).isPause = false
      · simpa [perform, TimerNode.pause, hv] using Effect.paused h hv.1
      · rw [perform_eq_self (by simp_all [TimerNode.pause])]
        exact .same _
  | resume event => simpa [call, resume, hp event] using Effect.same _

/-! ### What a call keeps -/

/-- `_normal` and `_manager` hold the same entries and `_pause` none. -/
structure Agree (s : TimerManager) : Prop where
  normal : s.normalMap = s.managerMap
  pause : ∀ event, s.pauseMap event = none

theorem Agree.effect (ha : s.Agree) (c : Call) : Effect s c (s.call c) :=
  effect_call ha.normal ha.pause c

theorem Effect.agree {c : Call} (h : Effect s c s') (ha : s.Agree) : s'.Agree := by
  cases h with
  | same => exact ha
  | destroyed => exact ⟨ha.normal, ha.pause⟩
  | paused => exact ⟨ha.normal, ha.pause⟩
  | refused => exact ⟨ha.normal, ha.pause⟩
  | started => exact ⟨by simp only [ha.normal], ha.pause⟩

/-- **The rule for the calls of a handler**: what every admissible call keeps, they
keep. -/
theorem calls_preserve {I : TimerManager → Prop} {P : Call → Prop}
    (hstep : ∀ {s c s'}, P c → s.Agree → I s → Effect s c s' → I s') (cs : List Call) :
    ∀ {s : TimerManager}, s.Agree → I s → (∀ c ∈ cs, P c) →
      (s.calls cs).Agree ∧ I (s.calls cs) := by
  induction cs with
  | nil => exact fun {s} ha hI _ => ⟨ha, hI⟩
  | cons c cs ih =>
    intro s ha hI hP
    rw [List.forall_mem_cons] at hP
    have heff := ha.effect c
    exact ih (heff.agree ha) (hstep hP.1 ha hI heff) hP.2

/-- The second node is the first but for its flags, which have only moved from valid
to invalid and from running to paused. -/
structure KeepsNode (n n' : TimerNode) : Prop where
  count : n'.count = n.count
  expire : n'.expire = n.expire
  interval : n'.interval = n.interval
  event : n'.event = n.event
  isValid : n'.isValid = true → n.isValid = true
  isPause : n.isPause = true → n'.isPause = true

theorem KeepsNode.refl (n : TimerNode) : KeepsNode n n := ⟨rfl, rfl, rfl, rfl, id, id⟩

theorem KeepsNode.trans {n₁ n₂ n₃ : TimerNode} (h : KeepsNode n₁ n₂) (h' : KeepsNode n₂ n₃) :
    KeepsNode n₁ n₃ :=
  ⟨h'.count.trans h.count, h'.expire.trans h.expire, h'.interval.trans h.interval,
    h'.event.trans h.event, h.isValid ∘ h'.isValid, h'.isPause ∘ h.isPause⟩

/-- What calls leave of a state: every node but for its flags, every registration,
and every place in the wheel. -/
structure Frame (s s' : TimerManager) : Prop where
  tickTime : s'.tickTime = s.tickTime
  nextNode : s.nextNode ≤ s'.nextNode
  node : ∀ x < s.nextNode, KeepsNode (s.node x) (s'.node x)
  managerMap : ∀ {event x}, s.managerMap event = some x → s'.managerMap event = some x
  slots : ∀ x < s.nextNode, (x ∈ contents s'.slots ↔ x ∈ contents s.slots)

theorem Frame.refl (s : TimerManager) : Frame s s :=
  ⟨rfl, le_rfl, fun _ _ => .refl _, id, fun _ _ => Iff.rfl⟩

theorem Frame.trans {s₁ s₂ s₃ : TimerManager} (h : Frame s₁ s₂) (h' : Frame s₂ s₃) :
    Frame s₁ s₃ where
  tickTime := h'.tickTime.trans h.tickTime
  nextNode := h.nextNode.trans h'.nextNode
  node := fun x hx => (h.node x hx).trans (h'.node x (hx.trans_le h.nextNode))
  managerMap := fun he => h'.managerMap (h.managerMap he)
  slots := fun x hx => (h'.slots x (hx.trans_le h.nextNode)).trans (h.slots x hx)

/-- Moving the flags of a node. -/
theorem frame_update {y : NodeId} {n : TimerNode} {log : List Callback}
    (h : KeepsNode (s.node y) n) :
    Frame s { s with node := Function.update s.node y n, log := log } := by
  refine ⟨rfl, le_rfl, fun x _ => ?_, id, fun _ _ => Iff.rfl⟩
  by_cases hxy : x = y
  · subst hxy
    simpa using h
  · simpa [hxy] using KeepsNode.refl _

/-- **Every call keeps what there is.** -/
theorem Effect.frame {c : Call} (h : Effect s c s') : Frame s s' := by
  cases h with
  | same => exact .refl s
  | destroyed => exact frame_update ⟨rfl, rfl, rfl, rfl, by simp, id⟩
  | paused => exact frame_update ⟨rfl, rfl, rfl, rfl, id, by simp⟩
  | refused =>
    refine ⟨rfl, Nat.le_succ _, fun x hx => ?_, id, fun _ _ => Iff.rfl⟩
    simpa [hx.ne] using KeepsNode.refl _
  | @started _ event _ _ _ _ hm =>
    refine ⟨rfl, Nat.le_succ _, fun x hx => ?_, fun {event' x} he => ?_, fun x hx => ?_⟩
    · simpa [hx.ne] using KeepsNode.refl _
    · have hne : event' ≠ event := by
        rintro rfl
        simp [hm] at he
      exact (Function.update_of_ne hne _ _).trans he
    · simp [hx.ne]

theorem calls_frame (ha : s.Agree) (cs : List Call) : Frame s (s.calls cs) :=
  (calls_preserve (I := Frame s) (P := fun _ => True) (fun _ _ hI heff => hI.trans heff.frame) cs ha
    (.refl s) fun _ _ => trivial).2

/-! ### What a call spares -/

/-- The callbacks node `x` has made so far. -/
def callbacks (s : TimerManager) (x : NodeId) : List Callback := s.log.filter fun c => c.node = x

/-- How often node `x` has called `OnTrigger`. -/
def triggers (s : TimerManager) (x : NodeId) : ℕ := s.log.count (.onTrigger x)

/-- They are among its callbacks. -/
theorem count_callbacks (s : TimerManager) (x : NodeId) :
    (s.callbacks x).count (.onTrigger x) = s.triggers x :=
  List.count_filter (by simp [Callback.node])

/-- Node `x` is as it was: its fields, its callbacks, whether the wheel holds it and
what it is registered under. -/
structure Spared (x : NodeId) (s s' : TimerManager) : Prop where
  tickTime : s'.tickTime = s.tickTime
  nextNode : s.nextNode ≤ s'.nextNode
  node : s'.node x = s.node x
  callbacks : s'.callbacks x = s.callbacks x
  slots : x ∈ contents s'.slots ↔ x ∈ contents s.slots
  registered : ∀ event, s'.managerMap event = some x ↔ s.managerMap event = some x

theorem Spared.refl (x : NodeId) (s : TimerManager) : Spared x s s :=
  ⟨rfl, le_rfl, rfl, rfl, Iff.rfl, fun _ => Iff.rfl⟩

theorem Spared.trans {x : NodeId} {s₁ s₂ s₃ : TimerManager} (h : Spared x s₁ s₂)
    (h' : Spared x s₂ s₃) : Spared x s₁ s₃ where
  tickTime := h'.tickTime.trans h.tickTime
  nextNode := h.nextNode.trans h'.nextNode
  node := h'.node.trans h.node
  callbacks := h'.callbacks.trans h.callbacks
  slots := h'.slots.trans h.slots
  registered := fun event => (h'.registered event).trans (h.registered event)

/-- **A call spares a node unless it flags it**: a valid node is only flagged by a
call on its event, and an invalid one by none. -/
theorem Effect.spared {c : Call} {x : NodeId} (h : Effect s c s') (hx : x < s.nextNode)
    (hkey : ∀ {event}, s.managerMap event = some x → (s.node x).event = event)
    (hc : ¬c.Touches (s.node x).event ∨ (s.node x).isValid = false) : Spared x s s' := by
  have hframe := h.frame
  -- a call flags only the valid node registered under its event, which is another
  have hflag : ∀ {event y}, s.managerMap event = some y → (s.node y).isValid = true →
      c.Touches event → y ≠ x := by
    rintro event y hm hv ht rfl
    rcases hc with hc | hc
    · exact hc (hkey hm ▸ ht)
    · simp [hv] at hc
  refine ⟨hframe.tickTime, hframe.nextNode, ?_, ?_, hframe.slots x hx, fun event => ?_⟩
  · cases h with
    | same => rfl
    | destroyed hm hv => exact Function.update_of_ne (hflag hm hv rfl).symm _ _
    | paused hm hv => exact Function.update_of_ne (hflag hm hv rfl).symm _ _
    | refused => exact Function.update_of_ne hx.ne _ _
    | started => exact Function.update_of_ne hx.ne _ _
  · cases h with
    | same => rfl
    | destroyed hm hv => simp [TimerManager.callbacks, Callback.node, hflag hm hv rfl]
    | paused hm hv => simp [TimerManager.callbacks, Callback.node, hflag hm hv rfl]
    | refused => simp [TimerManager.callbacks, Callback.node, hx.ne']
    | started => rfl
  · refine ⟨fun he => ?_, hframe.managerMap⟩
    cases h with
    | same => exact he
    | destroyed => exact he
    | paused => exact he
    | refused => exact he
    | started =>
      rcases PartialMap.update_eq_some.mp he with ⟨-, rfl⟩ | ⟨-, he⟩
      · exact absurd hx (lt_irrefl _)
      · exact he

end TimerManager

end Timer

end MToolkit

import MToolkit.Timer.Visit

/-!
# A manager drives its wheel

The wheel was proved exact on its own, over the runs of
`MToolkit.Timer.Wheel.Step`: nodes are inserted, their expiry is moved while they are in
no slot, and the clock ticks. This file shows that nothing else ever happens to the wheel
of a manager (`MToolkit.Timer.TimerManager.wheel_run`), so that what holds of every
reachable wheel holds of the wheel of every manager
(`MToolkit.Timer.TimerManager.Reachable.wheel`).

| step of the manager | what its wheel does |
|---|---|
| a call that marks a node | nothing |
| `Start` | the new node's expiry is set, and the node is inserted |
| `Trigger` and `RevisedExpire` in the loop | the expiry of a node in no slot is moved |
| `Executes` up to its loop | `Executes` |
-/

namespace MToolkit

namespace Timer

open Buckets Fallible Lts

namespace TimerManager

/-- Steps of a wheel lead from the wheel of the first manager to that of the second. -/
def Drives (s s' : TimerManager) : Prop := ∃ ms, Run Wheel.Step s.wheel ms s'.wheel

variable {s s' : TimerManager} {h : Handlers} {x : NodeId} {p : List NodeId}

theorem Drives.of_eq (hw : s'.wheel = s.wheel) : Drives s s' := ⟨[], hw ▸ .nil _⟩

theorem Drives.refl (s : TimerManager) : Drives s s := .of_eq rfl

theorem Drives.trans {s₁ s₂ s₃ : TimerManager} (h : Drives s₁ s₂) (h' : Drives s₂ s₃) :
    Drives s₁ s₃ := by
  obtain ⟨ms, hms⟩ := h
  obtain ⟨ms', hms'⟩ := h'
  exact ⟨ms ++ ms', hms.append hms'⟩

theorem Drives.of_step {l : Wheel.Label NodeId} (h : Wheel.Step s.wheel l s'.wheel) :
    Drives s s' := ⟨[l], .single h⟩

/-- The expiry times, when one node is changed. -/
theorem expire_update (node : NodeId → TimerNode) (x : NodeId) (n : TimerNode) :
    (fun y => (Function.update node x n y).expire) =
      Function.update (fun y => (node y).expire) x n.expire := by
  funext y
  by_cases hyx : y = x
  · subst hyx
    simp
  · simp [hyx]

/-- **Changing a node in no slot** moves its expiry at most. -/
theorem drives_touch {n : TimerNode} {nextNode : ℕ} {log : List Callback}
    (hx : x ∉ contents s.slots) :
    Drives s { s with
      node := Function.update s.node x n, nextNode := nextNode, log := log } := by
  have hstep : Wheel.Step s.wheel (.touch x n.expire) _ := .touch hx
  refine ⟨_, .single (l := .touch x n.expire) ?_⟩
  simp only [wheel, expire_update]
  exact hstep

/-- Marking a node does nothing to the wheel. -/
theorem drives_mark {n : TimerNode} {log : List Callback} (hn : n.expire = (s.node x).expire) :
    Drives s { s with node := Function.update s.node x n, log := log } := by
  refine .of_eq ?_
  simp only [wheel, expire_update, hn, Function.update_eq_self]

/-- Inserting a node, whatever is entered into the maps. -/
theorem drives_add {slot : Slot} {normalMap managerMap : Event → Option NodeId}
    (hslot : addSlot s.tickTime (s.node x).expire = some slot) :
    Drives s { s with
      slots := push s.slots slot x, normalMap := normalMap, managerMap := managerMap } := by
  refine .of_step (l := .addNode x) (.addNode ?_)
  simp [Wheel.addNode, wheel, hslot]

/-- **A call drives the wheel.** -/
theorem Effect.drives {c : Call} (heff : Effect s c s') (hI : Inv p s) : Drives s s' := by
  have hfresh : s.nextNode ∉ contents s.slots :=
    fun hx => hI.fresh (Multiset.mem_add.mpr (.inl hx))
  cases heff with
  | same => exact .refl s
  | destroyed => exact drives_mark rfl
  | paused => exact drives_mark rfl
  | refused => exact drives_touch hfresh
  | @started _ event count interval slot _ _ _ hslot =>
    have hmake : Drives s { s with
        node := Function.update s.node s.nextNode
          (.make event count (interval + s.tickTime) interval)
        nextNode := s.nextNode + 1
        log := s.log } := drives_touch hfresh
    exact hmake.trans (drives_add (by simpa [TimerNode.make] using hslot))

/-- **`Trigger` of a node in no slot drives the wheel.** -/
theorem Inv.trigger_drives (hI : Inv (x :: p) s) (hv : (s.node x).isValid = true) :
    Drives s (s.trigger h x) := by
  obtain ⟨hx, -⟩ := hI.notMem_rest
  refine hI.preserves_trigger (I := Drives s) (P := fun _ => True) hv (fun _ _ _ _ => trivial)
    (fun _ => drives_touch hx) (fun _ => drives_touch hx) ?_ ?_ (.refl s)
  · exact fun _ hIt ht heff => ht.trans (heff.drives hIt)
  · exact fun _ ht => ht.trans (drives_mark rfl)

/-- **A visit drives the wheel.** -/
theorem Inv.visit_drives (hI : Inv (x :: p) s) (hs : s.visit h x = .ok s') : Drives s s' := by
  cases visit_cases hs with
  | dropped => exact .refl s
  | erased => exact .of_eq rfl
  | @triggered t e slot hv _ ht _ _ _ hslot =>
    subst ht
    obtain ⟨hx, -⟩ := (hI.trigger (h := h) hv).1.notMem_rest
    have hrevise : Drives (s.trigger h x) { s.trigger h x with
        node := Function.update (s.trigger h x).node x
          { (s.trigger h x).node x with expire := e } } := drives_touch hx
    exact (hI.trigger_drives hv).trans (hrevise.trans (drives_add (by simpa using hslot)))

/-- `Executes` up to its loop is that of the wheel. -/
theorem Advanced.drives {handed : List NodeId} {slots : Slot → List NodeId}
    (ha : Advanced s handed slots) (hI : Inv [] s) :
    Drives s { s with tickTime := s.tickTime + 1, slots := slots } := by
  obtain ⟨handed', slots', hadv, -⟩ := Wheel.advance_spec hI.placed
  have hlift : s.advance =
      .ok (handed', { s with tickTime := s.tickTime + 1, slots := slots' }) := by
    rw [TimerManager.advance, hadv]
    rfl
  obtain ⟨rfl, hstate⟩ := Prod.mk.inj (Except.ok.inj (ha.advance_eq.symm.trans hlift))
  obtain rfl : slots = slots' := congrArg TimerManager.slots hstate
  exact .of_step (.executes hadv)

/-- **`Executes` drives the wheel.** -/
theorem Inv.executes_drives (hI : Inv [] s) (hs : s.executes h = .ok s') : Drives s s' := by
  refine hI.preserves_executes (I := fun _ => Drives s) hs ?_ fun ha => ha.drives hI
  exact fun hIt _ ht hv => ht.trans (hIt.visit_drives hv)

/-- **Every run of a manager is a run of its wheel.** -/
theorem wheel_run (hI : Inv [] s) {ls : List Label} (hrun : Run Step s ls s') :
    ∃ ms, Run Wheel.Step s.wheel ms s'.wheel := by
  refine (hI.preserves_run (I := Drives s) hrun (fun l _ => l.all_true) ?_ ?_ (.refl s)).2
  · exact fun _ hIt ht heff => ht.trans (heff.drives hIt)
  · exact fun _ hIt ht hex => ht.trans (hIt.executes_drives hex)

/-- **The wheel of every manager is a reachable wheel.** -/
theorem Reachable.wheel {P : Call → Prop} (hs : Reachable P s) : s.wheel.Reachable := by
  obtain ⟨ls, -, hrun⟩ := hs
  obtain ⟨ms, hms⟩ := wheel_run inv_init hrun
  exact ⟨_, ms, hms⟩

end TimerManager

end Timer

end MToolkit

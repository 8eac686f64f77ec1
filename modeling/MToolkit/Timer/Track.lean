import MToolkit.Timer.Visit

/-!
# Following one node

What happens to a given node `x` while everything else goes on. A step of the
manager that does not take `x` out of the wheel **spares** it
(`MToolkit.Timer.TimerManager.Spared`), and the `Executes` that does take it out
visits it once, sparing it before and after
(`MToolkit.Timer.TimerManager.Inv.executes_visited`). So a statement about the
history of a node is an induction over a run in which only the visits of that node
and the calls on its event count.

The proviso is that no call flags the node: either it is invalid already, or no
`Pause`, `Resume` or `Destroy` of its event is made
(`MToolkit.Timer.TimerManager.Quiet`).
-/

namespace MToolkit

namespace Timer

open Buckets Fallible Lts

namespace TimerManager

variable {s s' : TimerManager} {h : Handlers} {x y : NodeId} {p : List NodeId}

/-- No call that is made flags node `x`: the admissible ones leave its event alone, or
it is invalid. -/
def Quiet (P : Call → Prop) (s : TimerManager) (x : NodeId) : Prop :=
  (s.node x).isValid = false ∨ ∀ c, P c → ¬c.Touches (s.node x).event

theorem Quiet.spared {P : Call → Prop} (hq : Quiet P s x) (hs : Spared x s s') : Quiet P s' x := by
  rw [Quiet, hs.node]
  exact hq

/-- **A call spares a node it does not flag.** -/
theorem Effect.spared_of_quiet {P : Call → Prop} {c : Call} (heff : Effect s c s') (hI : Inv p s)
    (hx : x < s.nextNode) (hq : Quiet P s x) (hc : P c) : Spared x s s' :=
  heff.spared hx (fun hm => (hI.keyed hm).1) (hq.symm.imp_left fun hq => hq c hc)

theorem Inv.calls_spared {P : Call → Prop} (hI : Inv p s) (hx : x < s.nextNode) (hq : Quiet P s x)
    {cs : List Call} (hcs : ∀ c ∈ cs, P c) : Spared x s (s.calls cs) := by
  refine (hI.preserves_calls ?_ hcs (.refl x s)).2
  intro t c t' hc hIt ht heff
  exact ht.trans (heff.spared_of_quiet hIt (hx.trans_le ht.nextNode) (hq.spared ht) hc)

/-- Changing another node. -/
theorem spared_update {n : TimerNode} {log : List Callback} (hxy : x ≠ y)
    (hlog : ∀ c ∈ log, c.node = y) :
    Spared x s { s with node := Function.update s.node y n, log := s.log ++ log } := by
  refine ⟨rfl, le_rfl, Function.update_of_ne hxy _ _, ?_, Iff.rfl, fun _ => Iff.rfl⟩
  have hnone : log.filter (fun c => decide (c.node = x)) = [] := by
    refine List.filter_eq_nil_iff.mpr fun c hc => ?_
    rw [hlog c hc]
    simpa using hxy.symm
  simp only [callbacks, List.filter_append, hnone, List.append_nil]

/-- `Trigger` of another node. -/
theorem Inv.trigger_spared {P : Call → Prop} (hI : Inv (y :: p) s) (hv : (s.node y).isValid = true)
    (hx : x < s.nextNode) (hxy : x ≠ y) (hq : Quiet P s x) (hh : h.All P) :
    Spared x s (s.trigger h y) := by
  refine hI.preserves_trigger hv hh (fun _ => spared_update hxy (by simp [Callback.node]))
    (fun _ => spared_update hxy (by simp [Callback.node])) ?_ ?_ (.refl x s)
  · intro t c t' hc hIt ht heff
    exact ht.trans (heff.spared_of_quiet hIt (hx.trans_le ht.nextNode) (hq.spared ht) hc)
  · refine fun _ ht => ht.trans (spared_update hxy fun c hc => ?_)
    split_ifs at hc
    · rw [List.mem_singleton.mp hc]
      rfl
    · cases hc

/-- **A visit spares the other nodes.** -/
theorem Inv.visit_spared {P : Call → Prop} (hI : Inv (y :: p) s) (hs : s.visit h y = .ok s')
    (hx : x < s.nextNode) (hxy : x ≠ y) (hq : Quiet P s x) (hh : h.All P) : Spared x s s' := by
  cases visit_cases hs with
  | dropped => exact .refl x s
  | erased =>
    refine ⟨rfl, le_rfl, rfl, rfl, Iff.rfl, fun event => ?_⟩
    rw [PartialMap.erase_eq_some, and_iff_right_iff_imp]
    -- the entry under the event of `y` is `y`
    rintro hm rfl
    exact hxy (Option.some.inj (hm.symm.trans (hI.registered y (by simp))))
  | @triggered t e slot hv _ ht _ _ _ _ =>
    subst ht
    have htrig := hI.trigger_spared hv hx hxy hq hh
    have hback : Spared x (s.trigger h y)
        { s.trigger h y with
          node := Function.update (s.trigger h y).node y { (s.trigger h y).node y with expire := e }
          slots := push (s.trigger h y).slots slot y } := by
      refine ⟨rfl, le_rfl, Function.update_of_ne hxy _ _, rfl, ?_, fun _ => Iff.rfl⟩
      rw [contents_push, Multiset.mem_cons, or_iff_right hxy]
    exact htrig.trans hback

/-- A stretch of the loop spares the nodes that are not in it. -/
theorem Inv.loop_spared {P : Call → Prop} {l : List NodeId} (hI : Inv (l ++ p) s)
    (hl : Late (l ++ p) s) (hs : l.foldlM (TimerManager.visit h) s = .ok s') (hx : x < s.nextNode)
    (hxl : x ∉ l) (hq : Quiet P s x) (hh : h.All P) : Inv p s' ∧ Late p s' ∧ Spared x s s' := by
  have hstep : ∀ {y : NodeId} {l : List NodeId} {t t' : TimerManager},
      (Inv (y :: l ++ p) t ∧ Late (y :: l ++ p) t ∧ x ∉ y :: l ∧ Spared x s t) →
        t.visit h y = .ok t' → Inv (l ++ p) t' ∧ Late (l ++ p) t' ∧ x ∉ l ∧ Spared x s t' := by
    rintro y l t t' ⟨hI, hl, hxl, hsp⟩ hv
    rw [List.mem_cons, not_or] at hxl
    obtain ⟨hI', hl', -⟩ := hI.visit_step hl hv
    exact ⟨hI', hl', hxl.2, hsp.trans
      (hI.visit_spared hv (hx.trans_le hsp.nextNode) hxl.1 (hq.spared hsp) hh)⟩
  obtain ⟨hI', hl', -, hsp⟩ := foldlM_preserves
    (I := fun l t => Inv (l ++ p) t ∧ Late (l ++ p) t ∧ x ∉ l ∧ Spared x s t) hstep l
    ⟨hI, hl, hxl, .refl x s⟩ hs
  exact ⟨hI', hl', hsp⟩

/-- **An `Executes` spares a node it does not take out**, but for the tick. -/
theorem Inv.executes_spared {P : Call → Prop} (hI : Inv [] s) (hs : s.executes h = .ok s')
    (hx : x < s.nextNode) (hfree : x ∈ contents s.slots → s.tickTime < (s.node x).expire)
    (hq : Quiet P s x) (hh : h.All P) :
    Spared x { s with tickTime := s.tickTime + 1 } s' := by
  obtain ⟨handed, slots, ha, hloop, -⟩ := hI.executes_cases hs
  have hxl : x ∉ handed := by
    intro hc
    obtain ⟨hin, hlate⟩ := (ha.mem_handed x).mp hc
    exact not_lt.mpr hlate (hfree hin)
  obtain ⟨-, -, hsp⟩ := (show Inv (handed ++ []) _ by simpa using ha.inv).loop_spared
    (by simpa using ha.late) hloop hx hxl hq hh
  exact ⟨hsp.tickTime, hsp.nextNode, hsp.node, hsp.callbacks,
    hsp.slots.trans ((ha.mem_slots x).trans (and_iff_left_of_imp hfree)), hsp.registered⟩

/-- **An `Executes` that takes a node out visits it once**: it spares the node up to the
visit and after it. -/
theorem Inv.executes_visited (hI : Inv [] s) (hs : s.executes h = .ok s')
    (hx : x ∈ contents s.slots) (hdue : (s.node x).expire ≤ s.tickTime) {P : Call → Prop}
    (hq : Quiet P s x) (hh : h.All P) :
    ∃ p m m', Inv (x :: p) m ∧ Late (x :: p) m ∧ m.tickTime = s.tickTime + 1 ∧
      s.nextNode ≤ m.nextNode ∧ m.node x = s.node x ∧ m.callbacks x = s.callbacks x ∧
      (∀ event, m.managerMap event = some x ↔ s.managerMap event = some x) ∧
      m.visit h x = .ok m' ∧ (Quiet P m' x → Spared x m' s') := by
  obtain ⟨handed, slots, ha, hloop, -⟩ := hI.executes_cases hs
  obtain ⟨l, p, rfl⟩ := List.append_of_mem ((ha.mem_handed x).mpr ⟨hx, hdue⟩)
  obtain ⟨m, hfirst, hrest⟩ := foldlM_append_eq_ok.mp hloop
  rw [List.foldlM_cons, bind_eq_ok] at hrest
  obtain ⟨m', hvisit, hrest⟩ := hrest
  have hxl : x ∉ l ∧ x ∉ p := by
    have hnodup := (Multiset.nodup_add.mp ha.inv.nodup).2.1
    rw [Multiset.coe_nodup, List.nodup_middle, List.nodup_cons, List.mem_append, not_or] at hnodup
    exact hnodup.1
  have hlt : x < s.nextNode := ha.inv.lt (by simp)
  obtain ⟨hIm, hlm, hsp⟩ := ha.inv.loop_spared ha.late hfirst hlt hxl.1 hq hh
  obtain ⟨hIm', hlm', hpass⟩ := hIm.visit_step hlm hvisit
  refine ⟨p, m, m', hIm, hlm, hsp.tickTime, hsp.nextNode, hsp.node, hsp.callbacks, hsp.registered,
    hvisit, fun hq' => ?_⟩
  exact ((show Inv (p ++ []) m' by simpa using hIm').loop_spared (by simpa using hlm') hrest
    ((hlt.trans_le hsp.nextNode).trans_le hpass.nextNode) hxl.2 hq' hh).2.2

/-! ### What the visit does to it -/

/-- **`Trigger` of the node itself**, with counts left: `OnTrigger` leaves it alone. -/
theorem Inv.trigger_self {P : Call → Prop} (hI : Inv (x :: p) s) (hv : (s.node x).isValid = true)
    (hc : (s.node x).count ≠ 0) (hq : ∀ c, P c → ¬c.Touches (s.node x).event) (hh : h.All P) :
    (s.trigger h x).tickTime = s.tickTime ∧ s.nextNode ≤ (s.trigger h x).nextNode ∧
      (s.trigger h x).node x = { s.node x with
        expire := (s.node x).expire + (s.node x).interval
        count := (s.node x).count - 1
        isValid := (s.node x).count != 1 } ∧
      (s.trigger h x).callbacks x = s.callbacks x ++
        .onTrigger x :: (if (s.node x).count = 1 then [.onStop x false] else []) ∧
      ∀ event, (s.trigger h x).managerMap event = some x ↔ s.managerMap event = some x := by
  have hcalls := hI.raise.calls_spared (x := x) (hI.lt (by simp))
    (.inr fun c hPc => by simpa using hq c hPc) (hh (s.raise x) (s.node x).event)
  rw [trigger_of_count hv hc]
  set u := (s.raise x).calls (h (s.raise x) (s.node x).event) with hu
  have hun : u.node x = { s.node x with expire := (s.node x).expire + (s.node x).interval } := by
    rw [hcalls.node, raise_node_self]
  refine ⟨?_, ?_, ?_, ?_, fun event => ?_⟩
  · rw [settle_tickTime, hcalls.tickTime, raise_tickTime]
  · rw [settle_nextNode]
    exact hcalls.nextNode
  · rw [settle_node_self, hun, hv, Bool.true_and]
  · rw [settle_callbacks_self, hcalls.callbacks, raise_callbacks_self, hun, List.append_assoc,
      List.singleton_append]
  · rw [settle_managerMap]
    exact hcalls.registered event

/-- **A running node with counts left**, due now or late: it is triggered, moves on by its
period and is revised, and stops when this was its last count. -/
theorem Inv.executes_revised {P : Call → Prop} (hI : Inv [] s) (hs : s.executes h = .ok s')
    (hx : x ∈ contents s.slots) (hdue : (s.node x).expire ≤ s.tickTime)
    (hv : (s.node x).isValid = true) (hp : (s.node x).isPause = false)
    (hc : (s.node x).count ≠ 0)
    (hq : ∀ c, P c → ¬c.Touches (s.node x).event) (hh : h.All P) :
    ∃ e, { s.node x with
          expire := (s.node x).expire + (s.node x).interval
          count := (s.node x).count - 1
          isValid := (s.node x).count != 1 }.revisedExpire (s.tickTime + 1) =
        .ok { s.node x with
          expire := e
          count := (s.node x).count - 1
          isValid := (s.node x).count != 1 } ∧
      s'.tickTime = s.tickTime + 1 ∧ s.nextNode ≤ s'.nextNode ∧
      s'.node x = { s.node x with
        expire := e
        count := (s.node x).count - 1
        isValid := (s.node x).count != 1 } ∧
      s'.callbacks x = s.callbacks x ++
        .onTrigger x :: (if (s.node x).count = 1 then [.onStop x false] else []) ∧
      x ∈ contents s'.slots ∧
      ∀ event, s'.managerMap event = some x ↔ s.managerMap event = some x := by
  obtain ⟨p, m, m', hIm, hlm, htick, hnext, hnode, hcb, hreg, hvisit, hrest⟩ :=
    hI.executes_visited hs hx hdue (.inr hq) hh
  have hvm : (m.node x).isValid = true := by rwa [hnode]
  obtain ⟨e, slot, hrev, -, rfl⟩ := visit_of_running hvm (by rwa [hnode]) hvisit
  obtain ⟨ttick, tnext, tnode, tcb, treg⟩ :=
    hIm.trigger_self hvm (by rwa [hnode]) (by rwa [hnode]) hh
  rw [hnode] at tnode
  rw [hcb, hnode] at tcb
  rw [tnode, ttick, htick] at hrev
  -- nothing touches the node behind its visit
  have hback := hrest (.inr fun c hPc => by simpa [tnode] using hq c hPc)
  refine ⟨e, hrev, hback.tickTime.trans (ttick.trans htick),
    hnext.trans (tnext.trans hback.nextNode), ?_, hback.callbacks.trans tcb,
    hback.slots.mpr (by simp), fun event =>
      (hback.registered event).trans ((treg event).trans (hreg event))⟩
  rw [hback.node]
  simp [tnode]

/-- **A running node with counts left**, due now: it moves on by its period. -/
theorem Inv.executes_triggered {P : Call → Prop} (hI : Inv [] s) (hs : s.executes h = .ok s')
    (hx : x ∈ contents s.slots) (hdue : (s.node x).expire = s.tickTime)
    (hv : (s.node x).isValid = true) (hp : (s.node x).isPause = false)
    (hc : (s.node x).count ≠ 0) (hint : 1 ≤ (s.node x).interval)
    (hq : ∀ c, P c → ¬c.Touches (s.node x).event) (hh : h.All P) :
    s'.tickTime = s.tickTime + 1 ∧ s.nextNode ≤ s'.nextNode ∧
      s'.node x = { s.node x with
        expire := (s.node x).expire + (s.node x).interval
        count := (s.node x).count - 1
        isValid := (s.node x).count != 1 } ∧
      s'.callbacks x = s.callbacks x ++
        .onTrigger x :: (if (s.node x).count = 1 then [.onStop x false] else []) ∧
      x ∈ contents s'.slots ∧
      ∀ event, s'.managerMap event = some x ↔ s.managerMap event = some x := by
  obtain ⟨e, hrev, hrest⟩ := hI.executes_revised hs hx hdue.le hv hp hc hq hh
  obtain ⟨e', he, hle, hmax, -⟩ := TimerNode.revisedExpire_ok hrev
  obtain rfl : e = e' := congrArg TimerNode.expire he
  -- the node is not late, so it is put back where its period takes it
  obtain rfl : e = (s.node x).expire + (s.node x).interval := by
    dsimp only at hle hmax
    omega
  exact hrest

/-- **An invalid node**, due now: it leaves the wheel and the maps. -/
theorem Inv.executes_erased (hI : Inv [] s) (hs : s.executes h = .ok s')
    (hx : x ∈ contents s.slots) (hdue : (s.node x).expire ≤ s.tickTime)
    (hv : (s.node x).isValid = false) :
    s'.tickTime = s.tickTime + 1 ∧ s.nextNode ≤ s'.nextNode ∧ s'.node x = s.node x ∧
      s'.callbacks x = s.callbacks x ∧ x ∉ contents s'.slots ∧
      ∀ event, s'.managerMap event ≠ some x := by
  obtain ⟨p, m, m', hIm, hlm, htick, hnext, hnode, hcb, hreg, hvisit, hrest⟩ :=
    hI.executes_visited (P := fun _ => True) hs hx hdue (.inl hv) fun _ _ _ _ => trivial
  have hvm : (m.node x).isValid = false := by rwa [hnode]
  cases visit_cases hvisit with
  | dropped hvm' => simp [hvm] at hvm'
  | triggered hvm' => simp [hvm] at hvm'
  | erased =>
    have hback := hrest (.inl hvm)
    refine ⟨hback.tickTime.trans htick, hnext.trans hback.nextNode, hback.node.trans hnode,
      hback.callbacks.trans hcb, fun hc => ?_, fun event hm => ?_⟩
    · exact hIm.notMem_slots List.mem_cons_self (hback.slots.mp hc)
    · obtain ⟨hne, hm'⟩ := PartialMap.erase_eq_some.mp ((hback.registered event).mp hm)
      exact hne (hIm.keyed hm').1.symm

end TimerManager

end Timer

end MToolkit

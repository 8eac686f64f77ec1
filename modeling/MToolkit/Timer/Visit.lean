import MToolkit.Timer.Invariant

/-!
# What `Executes` does to a node it visits

The loop of `Executes`, taken apart the way `MToolkit.Timer.TimerManager.Effect`
takes a call apart. A visit of a node out of the wheel does one of three things
(`MToolkit.Timer.TimerManager.Visit`): it drops the node because it is paused,
erases it from the maps because it is invalid, or triggers it and puts it back.
The last one has the calls of an `OnTrigger` in its middle: they see the node with
its expiry already moved (`MToolkit.Timer.TimerManager.raise`), and what is left of
`Trigger` after them looks at the count only
(`MToolkit.Timer.TimerManager.settle`).

With it comes the rest of the invariant's preservation: a visit keeps it, hence the
loop, hence every step of a run (`MToolkit.Timer.TimerManager.Reachable.inv`).
-/

namespace MToolkit

namespace Timer

open Buckets Fallible Lts

namespace TimerManager

variable {s s' : TimerManager} {h : Handlers} {x y : NodeId} {p : List NodeId}

/-! ### `Trigger` in pieces -/

/-- The state in which `Trigger` of node `x` calls `OnTrigger`. -/
def raise (s : TimerManager) (x : NodeId) : TimerManager :=
  { s with
    node := Function.update s.node x
      { s.node x with expire := (s.node x).expire + (s.node x).interval }
    log := s.log ++ [.onTrigger x] }

/-- What `Trigger` of node `x` does once `OnTrigger` has returned. -/
def settle (s : TimerManager) (x : NodeId) : TimerManager :=
  { s with
    node := Function.update s.node x
      { s.node x with
        count := (s.node x).count - 1
        isValid := (s.node x).isValid && (s.node x).count != 1 }
    log := s.log ++ if (s.node x).count = 1 then [.onStop x false] else [] }

/-- What `Trigger` does to a node whose count is zero. -/
def exhaust (s : TimerManager) (x : NodeId) : TimerManager :=
  { s with
    node := Function.update s.node x
      { s.node x with expire := (s.node x).expire + (s.node x).interval, isValid := false }
    log := s.log ++ [.onStop x false] }

section Fields

@[simp] theorem raise_tickTime : (s.raise x).tickTime = s.tickTime := rfl
@[simp] theorem raise_node_self : (s.raise x).node x =
    { s.node x with expire := (s.node x).expire + (s.node x).interval } := Function.update_self ..

@[simp] theorem settle_tickTime : (s.settle x).tickTime = s.tickTime := rfl
@[simp] theorem settle_nextNode : (s.settle x).nextNode = s.nextNode := rfl
@[simp] theorem settle_managerMap : (s.settle x).managerMap = s.managerMap := rfl
@[simp] theorem settle_node_self : (s.settle x).node x =
    { s.node x with
      count := (s.node x).count - 1
      isValid := (s.node x).isValid && (s.node x).count != 1 } := Function.update_self ..

@[simp] theorem raise_callbacks_self :
    (s.raise x).callbacks x = s.callbacks x ++ [.onTrigger x] := by
  simp [callbacks, raise, Callback.node]

@[simp] theorem settle_callbacks_self :
    (s.settle x).callbacks x =
      s.callbacks x ++ if (s.node x).count = 1 then [.onStop x false] else [] := by
  by_cases h : (s.node x).count = 1 <;> simp [callbacks, settle, Callback.node, h]

end Fields

theorem sub_one_eq_zero_iff {n : UInt64} : n - 1 = 0 ↔ n = 1 := by
  constructor <;> intro h <;> grind

theorem toNat_sub_one {n : UInt64} (h : n ≠ 0) : (n - 1).toNat + 1 = n.toNat := by
  have hpos : n.toNat ≠ 0 := fun hzero => h (UInt64.toNat_inj.mp hzero)
  rw [UInt64.toNat_sub_of_le _ _ (by rw [UInt64.le_iff_toNat_le, UInt64.toNat_one]; omega),
    UInt64.toNat_one]
  omega

/-- **`Trigger` of a valid node with counts left.** -/
theorem trigger_of_count (hv : (s.node x).isValid = true) (hc : (s.node x).count ≠ 0) :
    s.trigger h x =
      ((s.raise x).calls (h (s.raise x) (s.node x).event)).settle x := by
  set u := (s.raise x).calls (h (s.raise x) (s.node x).event) with hu
  have hcount : s.trigger h x =
      (let t := u.perform x fun n => ({ n with count := n.count - 1 }, [])
       if (t.node x).count = 0 then
         t.perform x fun n => ({ n with isValid := false }, [.onStop x false]) else t) := by
    simp only [trigger, if_pos hv, perform, Function.update_self, List.append_nil, if_pos hc]
    rfl
  rw [hcount]
  by_cases h1 : (u.node x).count = 1
  · simp [perform, settle, h1]
  · have hne : ((u.node x).count != 1) = true := bne_iff_ne.mpr h1
    simp [perform, settle, h1, hne, sub_one_eq_zero_iff]

/-- **`Trigger` of a valid node with no count left.** -/
theorem trigger_of_zero (hv : (s.node x).isValid = true) (hc : (s.node x).count = 0) :
    s.trigger h x = s.exhaust x := by
  simp [trigger, hv, perform, hc, exhaust]

/-! ### What a visit can do -/

/-- The three things the loop does to a node. -/
inductive Visit (h : Handlers) (s : TimerManager) (x : NodeId) : TimerManager → Prop
  /-- A paused node is dropped. -/
  | dropped : (s.node x).isValid = true → (s.node x).isPause = true → Visit h s x s
  /-- An invalid node leaves the maps. -/
  | erased : (s.node x).isValid = false →
      Visit h s x
        { s with
          pauseMap := PartialMap.erase s.pauseMap (s.node x).event
          normalMap := PartialMap.erase s.normalMap (s.node x).event
          managerMap := PartialMap.erase s.managerMap (s.node x).event }
  /-- A running node is triggered, revised to expire at `e`, and put back. -/
  | triggered {t : TimerManager} {e : ℤ} {slot : Slot} :
      (s.node x).isValid = true → (s.node x).isPause = false → t = s.trigger h x →
      (t.node x).expire ≤ e → e ≤ max (t.node x).expire t.tickTime →
      (t.tickTime ≤ (t.node x).expire → e = (t.node x).expire) →
      addSlot t.tickTime e = some slot →
      Visit h s x
        { t with
          node := Function.update t.node x { t.node x with expire := e }
          slots := push t.slots slot x }

/-- A running node is triggered, revised, and put back where it then expires. -/
theorem visit_of_running (hv : (s.node x).isValid = true) (hp : (s.node x).isPause = false)
    (hs : s.visit h x = .ok s') :
    ∃ e slot,
      ((s.trigger h x).node x).revisedExpire (s.trigger h x).tickTime =
        .ok { (s.trigger h x).node x with expire := e } ∧
      addSlot (s.trigger h x).tickTime e = some slot ∧
      s' = { s.trigger h x with
        node := Function.update (s.trigger h x).node x
          { (s.trigger h x).node x with expire := e }
        slots := push (s.trigger h x).slots slot x } := by
  rw [visit, if_pos hv, if_neg (by simp [hp])] at hs
  obtain ⟨u, hu, hadd⟩ := bind_eq_ok.mp hs
  rw [revisedExpire, bind_eq_ok] at hu
  obtain ⟨n, hn, hu⟩ := hu
  obtain rfl := Except.ok.inj hu
  obtain ⟨e, rfl, -⟩ := TimerNode.revisedExpire_ok hn
  rcases hslot : addSlot (s.trigger h x).tickTime e with _ | slot
  · rw [addNode_of_limit (by simpa using addSlot_eq_none.mp hslot)] at hadd
    cases hadd
  · exact ⟨e, slot, hn, hslot,
      (Except.ok.inj ((addNode_of_slot slot (by simpa using hslot)).symm.trans hadd)).symm⟩

/-- **What a visit can do**, if it returns. -/
theorem visit_cases (hs : s.visit h x = .ok s') : Visit h s x s' := by
  cases hv : (s.node x).isValid with
  | false =>
    rw [visit, if_neg (by simp [hv])] at hs
    obtain rfl := Except.ok.inj hs
    exact .erased hv
  | true =>
    cases hp : (s.node x).isPause with
    | true =>
      rw [visit, if_pos hv, if_pos hp] at hs
      obtain rfl := Except.ok.inj hs
      exact .dropped hv hp
    | false =>
      obtain ⟨e, slot, hn, hslot, rfl⟩ := visit_of_running hv hp hs
      obtain ⟨e', he, hle, hmax, -⟩ := TimerNode.revisedExpire_ok hn
      obtain rfl : e = e' := congrArg TimerNode.expire he
      exact .triggered hv hp rfl hle hmax (fun htick => by omega) hslot

/-- **What a visit leaves of the other nodes**: all but their flags. -/
structure Passes (x : NodeId) (s s' : TimerManager) : Prop where
  tickTime : s'.tickTime = s.tickTime
  nextNode : s.nextNode ≤ s'.nextNode
  node : ∀ y < s.nextNode, y ≠ x → KeepsNode (s.node y) (s'.node y)

theorem Frame.passes (hf : Frame s s') : Passes x s s' :=
  ⟨hf.tickTime, hf.nextNode, fun y hy _ => hf.node y hy⟩

theorem Passes.trans {s₁ s₂ s₃ : TimerManager} (h₁ : Passes x s₁ s₂) (h₂ : Passes x s₂ s₃) :
    Passes x s₁ s₃ :=
  ⟨h₂.tickTime.trans h₁.tickTime, h₁.nextNode.trans h₂.nextNode, fun y hy hne =>
    (h₁.node y hy hne).trans (h₂.node y (hy.trans_le h₁.nextNode) hne)⟩

/-- Changing the node visited, and whatever is no node. -/
theorem passes_update {n : TimerNode} {slots : Slot → List NodeId} {log : List Callback} :
    Passes x s { s with node := Function.update s.node x n, slots := slots, log := log } := by
  refine ⟨rfl, le_rfl, fun y _ hne => ?_⟩
  simpa [hne] using KeepsNode.refl _

/-! ### The invariant through a visit -/

theorem Inv.raise (h : Inv (x :: p) s) : Inv (x :: p) (s.raise x) :=
  h.setNode rfl rfl id (.inl List.mem_cons_self)
    (logged_append (by simpa [Callback.node] using h.lt (by simp)))

theorem Inv.settle (h : Inv (x :: p) s) : Inv (x :: p) (s.settle x) :=
  h.setNode rfl rfl (fun hv => (Bool.and_eq_true_iff.mp hv).1) (.inl List.mem_cons_self)
    (logged_append fun c hc => by
      split_ifs at hc
      · rw [List.mem_singleton.mp hc]
        exact h.lt (by simp [Callback.node])
      · cases hc)

theorem Inv.exhaust (h : Inv (x :: p) s) : Inv (x :: p) (s.exhaust x) :=
  h.setNode rfl rfl (by simp) (.inl List.mem_cons_self)
    (logged_append (by simpa [Callback.node] using h.lt (by simp)))

/-- **`Trigger`** moves the expiry of its node by one period, whatever `OnTrigger`
does. -/
theorem Inv.trigger (hI : Inv (x :: p) s) (hv : (s.node x).isValid = true) :
    Inv (x :: p) (s.trigger h x) ∧ Passes x s (s.trigger h x) ∧
      ((s.trigger h x).node x).expire = (s.node x).expire + (s.node x).interval ∧
      ((s.trigger h x).node x).interval = (s.node x).interval := by
  by_cases hc : (s.node x).count = 0
  · rw [trigger_of_zero hv hc]
    exact ⟨hI.exhaust, passes_update, by simp [TimerManager.exhaust],
      by simp [TimerManager.exhaust]⟩
  · rw [trigger_of_count hv hc]
    set cs := h (s.raise x) (s.node x).event
    have hf : Frame (s.raise x) ((s.raise x).calls cs) := calls_frame hI.raise.agree cs
    have hx : x < (s.raise x).nextNode := hI.lt (by simp)
    have hkeep := hf.node x hx
    refine ⟨(hI.raise.calls cs).settle,
      (passes_update.trans hf.passes).trans passes_update, ?_, ?_⟩
    · simpa using hkeep.expire
    · simpa using hkeep.interval

/-- **The rule for `Trigger`**: what its pieces and the calls of `OnTrigger` keep, it
keeps. -/
theorem Inv.preserves_trigger {I : TimerManager → Prop} {P : Call → Prop} (hI : Inv (x :: p) s)
    (hv : (s.node x).isValid = true) (hh : h.All P) (hexhaust : I s → I (s.exhaust x))
    (hraise : I s → I (s.raise x))
    (heffect : ∀ {t c t'}, P c → Inv (x :: p) t → I t → Effect t c t' → I t')
    (hsettle : ∀ {t}, Inv (x :: p) t → I t → I (t.settle x)) (hs : I s) : I (s.trigger h x) := by
  by_cases hc : (s.node x).count = 0
  · rw [trigger_of_zero hv hc]
    exact hexhaust hs
  · rw [trigger_of_count hv hc]
    obtain ⟨hIu, hu⟩ := hI.raise.preserves_calls heffect (hh _ (s.node x).event) (hraise hs)
    exact hsettle hIu hu

/-- **An erased node leaves the maps, and nothing else does**: the entries under its
event are its own. -/
theorem Inv.erased (hI : Inv (x :: p) s) (hv : (s.node x).isValid = false) :
    Inv p { s with
      pauseMap := PartialMap.erase s.pauseMap (s.node x).event
      normalMap := PartialMap.erase s.normalMap (s.node x).event
      managerMap := PartialMap.erase s.managerMap (s.node x).event } := by
  have hmem : ∀ {y}, y ∈ contents s.slots + (p : Multiset NodeId) →
      y ∈ contents s.slots + ((x :: p : List NodeId) : Multiset NodeId) :=
    fun hy => held_cons ▸ Multiset.mem_cons_of_mem hy
  obtain ⟨hfresh, hnodup⟩ := Multiset.nodup_cons.mp (held_cons ▸ hI.nodup)
  have hreg := hI.registered x (by simp)
  -- a node registered for another event, or held besides `x`, is not `x`
  have hne : ∀ {y}, s.managerMap (s.node y).event = some y → y ≠ x →
      PartialMap.erase s.managerMap (s.node x).event (s.node y).event = some y :=
    fun hy hyx => PartialMap.erase_eq_some.mpr ⟨fun he => hyx (event_inj hy hreg he), hy⟩
  refine ⟨hI.placed, hnodup, fun y hy => hne (hI.registered y (hmem hy)) fun he => hfresh (he ▸ hy),
    ⟨by simp only [hI.agree.normal], fun event => ?_⟩,
    fun he => hI.keyed (PartialMap.erase_eq_some.mp he).2,
    fun he => hI.limit (PartialMap.erase_eq_some.mp he).2, fun {event y} he hy => ?_,
    fun y hy => ?_, hI.logged⟩
  · simp only [PartialMap.erase_of_none (hI.agree.pause (s.node x).event)]
    exact hI.agree.pause event
  · obtain ⟨hev, hm⟩ := PartialMap.erase_eq_some.mp he
    refine hI.dropped hm fun hc => ?_
    rw [held_cons, Multiset.mem_cons] at hc
    rcases hc with rfl | hc
    · exact hev (hI.keyed hm).1.symm
    · exact hy hc
  · refine hne (hI.live y hy) fun hyx => ?_
    subst hyx
    simp [hv] at hy

/-- A dropped node is gone from the wheel for good, but stays registered. -/
theorem Inv.drop (hI : Inv (x :: p) s) (hp : (s.node x).isPause = true)
    (hlate : (s.node x).expire < s.tickTime) : Inv p s := by
  obtain ⟨-, hnodup⟩ := Multiset.nodup_cons.mp (held_cons ▸ hI.nodup)
  refine ⟨hI.placed, hnodup, fun y hy => hI.registered y ?_,
    hI.agree, hI.keyed, hI.limit, fun {event y} he hy => ?_, hI.live, hI.logged⟩
  · exact held_cons ▸ Multiset.mem_cons_of_mem hy
  · by_cases hyx : y = x
    · subst hyx
      exact ⟨hp, hlate⟩
    · refine hI.dropped he ?_
      rw [held_cons, Multiset.mem_cons]
      exact not_or.mpr ⟨hyx, hy⟩

/-- **A visit of a node that has expired** goes through, keeps the invariant and
passes the other nodes by – unless it divides by zero, which takes a period of
zero. -/
theorem Inv.visit (hI : Inv (x :: p) s) (hlate : (s.node x).expire < s.tickTime) :
    (∃ s', s.visit h x = .ok s' ∧ Inv p s' ∧ Passes x s s') ∨
      (s.visit h x = .error .divideByZero ∧ (s.node x).isValid = true ∧
        (s.node x).isPause = false ∧ (s.node x).interval = 0) := by
  by_cases hv : (s.node x).isValid = true
  swap
  · rw [Bool.not_eq_true] at hv
    exact .inl ⟨_, by simp [TimerManager.visit, hv], hI.erased hv, rfl, le_rfl,
      fun y _ _ => KeepsNode.refl _⟩
  by_cases hp : (s.node x).isPause = true
  · exact .inl ⟨s, by simp [TimerManager.visit, hv, hp], hI.drop hp hlate,
      (Frame.refl s).passes⟩
  rw [Bool.not_eq_true] at hp
  obtain ⟨hI', hpass, hexp, hint⟩ := hI.trigger (h := h) hv
  have hlimit : (s.node x).interval ≤ 0xffffffff := hI.limit (hI.registered x (by simp))
  have htick := hpass.tickTime
  have hvisit : s.visit h x = ((s.trigger h x).revisedExpire x >>= fun t => t.addNode x) := by
    rw [TimerManager.visit, if_pos hv, if_neg (by simp [hp])]
  set t := s.trigger h x with ht
  rcases hr : (t.node x).revisedExpire t.tickTime with f | n
  · obtain ⟨rfl, hzero, -⟩ := TimerNode.revisedExpire_eq_error.mp hr
    refine .inr ⟨?_, hv, hp, by omega⟩
    rw [hvisit, TimerManager.revisedExpire, hr]
    rfl
  · obtain ⟨e, rfl, hle, hmax, -⟩ := TimerNode.revisedExpire_ok hr
    -- the node is put back with its new expiry
    have hset : Inv (x :: p)
        { t with node := Function.update t.node x { t.node x with expire := e } } :=
      hI'.setNode rfl rfl id (.inl List.mem_cons_self) fun c hc => .inl hc
    obtain ⟨slots, hadd, -, hI''⟩ := hset.addNode (by simp only [Function.update_self]; omega)
    refine .inl ⟨_, ?_, hI'', hpass.trans passes_update⟩
    rw [hvisit, TimerManager.revisedExpire, hr]
    exact hadd

/-! ### The loop -/

/-- The nodes of the list have expired. -/
def Late (p : List NodeId) (s : TimerManager) : Prop := ∀ x ∈ p, (s.node x).expire < s.tickTime

theorem Advanced.late {handed : List NodeId} {slots : Slot → List NodeId}
    (ha : Advanced s handed slots) :
    Late handed { s with tickTime := s.tickTime + 1, slots := slots } :=
  fun x hx => Int.lt_add_one_of_le ((ha.mem_handed x).mp hx).2

theorem Inv.late (hI : Inv (x :: p) s) (hl : Late (x :: p) s) (hpass : Passes x s s') :
    Late p s' := by
  intro y hy
  have hne : y ≠ x := by
    rintro rfl
    exact hI.notMem_rest.2 hy
  have hkeep := hpass.node y (hI.lt (by simp [hy])) hne
  rw [hkeep.expire, hpass.tickTime]
  exact hl y (List.mem_cons_of_mem x hy)

/-- **One turn of the loop.** -/
theorem Inv.visit_step (hI : Inv (x :: p) s) (hl : Late (x :: p) s)
    (hs : s.visit h x = .ok s') : Inv p s' ∧ Late p s' ∧ Passes x s s' := by
  rcases hI.visit (h := h) (hl x List.mem_cons_self) with ⟨t, ht, hI', hpass⟩ | ⟨herr, -⟩
  · obtain rfl := Except.ok.inj (ht.symm.trans hs)
    exact ⟨hI', hI.late hl hpass, hpass⟩
  · rw [herr] at hs
    cases hs

/-- The list of `Executes` goes away without a destructor call: a valid node is in the
maps. -/
theorem Inv.release (hI : Inv p s) (l : List NodeId) : l.foldl release s = s := by
  induction l with
  | nil => rfl
  | cons x l ih =>
    have hx : s.release x = s := by
      rw [TimerManager.release]
      split_ifs with hh
      · rfl
      · have hv : (s.node x).isValid = false := by
          rw [← Bool.not_eq_true]
          exact fun hv => hh (.inl (hI.live x hv))
        exact perform_eq_self (by simp [TimerNode.destroy, hv])
    rw [List.foldl_cons, hx, ih]

/-- `Executes` is its loop, the list having been swapped out. -/
theorem executes_of_advance {handed : List NodeId} {s₁ : TimerManager}
    (hadv : s.advance = .ok (handed, s₁)) :
    s.executes h = handed.foldlM (TimerManager.visit h) s₁ >>= fun t =>
      .ok (handed.foldl TimerManager.release t) := by
  rw [executes, hadv]
  rfl

/-- **What `Executes` does**: it gets to its loop, and returns what its loop returns. -/
theorem Inv.executes_cases (hI : Inv [] s) (hs : s.executes h = .ok s') :
    ∃ handed slots, Advanced s handed slots ∧
      handed.foldlM (TimerManager.visit h) { s with tickTime := s.tickTime + 1, slots := slots } =
        .ok s' ∧ Inv [] s' := by
  obtain ⟨handed, slots, ha⟩ := hI.advanced
  rw [executes_of_advance ha.advance_eq, bind_eq_ok] at hs
  obtain ⟨t, ht, hs⟩ := hs
  have hIt : Inv [] t := (foldlM_preserves (I := fun l t => Inv l t ∧ Late l t)
    (fun hI hv => ((hI.1.visit_step hI.2 hv).imp_right And.left)) handed ⟨ha.inv, ha.late⟩ ht).1
  rw [hIt.release] at hs
  obtain rfl := Except.ok.inj hs
  exact ⟨handed, slots, ha, ht, hIt⟩

/-- **The rule for `Executes`**: what holds at the start of its loop and every visit
keeps, the nodes still to be visited being told, it keeps. -/
theorem Inv.preserves_executes {I : List NodeId → TimerManager → Prop} (hI : Inv [] s)
    (hs : s.executes h = .ok s')
    (hvisit : ∀ {x p t t'}, Inv (x :: p) t → Late (x :: p) t → I (x :: p) t →
      t.visit h x = .ok t' → I p t')
    (hstart : ∀ {handed slots}, Advanced s handed slots →
      I handed { s with tickTime := s.tickTime + 1, slots := slots }) : I [] s' := by
  obtain ⟨handed, slots, ha, hloop, -⟩ := hI.executes_cases hs
  refine (foldlM_preserves (I := fun l t => Inv l t ∧ Late l t ∧ I l t) ?_ handed
    ⟨ha.inv, ha.late, hstart ha⟩ hloop).2.2
  rintro x l t t' ⟨hIt, hlt, ht⟩ hv
  obtain ⟨hIt', hlt', -⟩ := hIt.visit_step hlt hv
  exact ⟨hIt', hlt', hvisit hIt hlt ht hv⟩

/-- **The rule for `Executes`, with progress**: where every visit keeps it or faults in
a way that is allowed, so does `Executes`. -/
theorem Inv.executes_total {I : List NodeId → TimerManager → Prop} {E : Fault → Prop}
    (hI : Inv [] s)
    (hvisit : ∀ {x p t}, Inv (x :: p) t → Late (x :: p) t → I (x :: p) t →
      (∃ t', t.visit h x = .ok t' ∧ I p t') ∨ ∃ e, t.visit h x = .error e ∧ E e)
    (hstart : ∀ {handed slots}, Advanced s handed slots →
      I handed { s with tickTime := s.tickTime + 1, slots := slots }) :
    (∃ s', s.executes h = .ok s' ∧ I [] s') ∨ ∃ e, s.executes h = .error e ∧ E e := by
  obtain ⟨handed, slots, ha⟩ := hI.advanced
  rw [executes_of_advance ha.advance_eq]
  have hloop := foldlM_total (f := TimerManager.visit h)
    (I := fun l t => Inv l t ∧ Late l t ∧ I l t) (E := E) ?_ handed ⟨ha.inv, ha.late, hstart ha⟩
  · rcases hloop with ⟨t, ht, hIt, -, hIend⟩ | ⟨e, he, hE⟩
    · exact .inl ⟨t, by rw [ht, ok_bind, hIt.release], hIend⟩
    · exact .inr ⟨e, by rw [he, error_bind], hE⟩
  · rintro x l t ⟨hIt, hlt, ht⟩
    rcases hvisit hIt hlt ht with ⟨t', hv, ht'⟩ | hfault
    · obtain ⟨hIt', hlt', -⟩ := hIt.visit_step hlt hv
      exact .inl ⟨t', hv, hIt', hlt', ht'⟩
    · exact .inr hfault

/-- `Executes` moves the clock by one tick. -/
theorem Inv.executes_tick (hI : Inv [] s) (hs : s.executes h = .ok s') :
    s'.tickTime = s.tickTime + 1 := by
  refine hI.preserves_executes (I := fun _ t => t.tickTime = s.tickTime + 1) hs ?_ fun _ => rfl
  intro x p t t' hIt hlt ht hv
  obtain ⟨-, -, hpass⟩ := hIt.visit_step hlt hv
  exact hpass.tickTime.trans ht

/-- **Every step of a run keeps the invariant.** -/
theorem Step.inv {l : Label} (hs : Step s l s') (hI : Inv [] s) : Inv [] s' := by
  cases hs with
  | call c => exact (hI.agree.effect c).inv hI
  | executes hs =>
    obtain ⟨-, -, -, -, hI'⟩ := hI.executes_cases hs
    exact hI'

/-- **The rule for runs**: what every admissible call and every `Executes` with
admissible handlers keep, a run keeps. -/
theorem Inv.preserves_run {I : TimerManager → Prop} {P : Call → Prop} (hI : Inv [] s)
    {ls : List Label} (hrun : Run Step s ls s') (hls : ∀ l ∈ ls, l.All P)
    (hcall : ∀ {t c t'}, P c → Inv [] t → I t → Effect t c t' → I t')
    (hexecutes : ∀ {h t t'}, h.All P → Inv [] t → I t → t.executes h = .ok t' → I t')
    (hs : I s) : Inv [] s' ∧ I s' := by
  refine hrun.preserves (I := fun t => Inv [] t ∧ I t) (P := fun l => l.All P) ?_ hls ⟨hI, hs⟩
  rintro t l t' ⟨hIt, ht⟩ hl hstep
  refine ⟨hstep.inv hIt, ?_⟩
  cases hstep with
  | call c => exact hcall hl hIt ht (hIt.agree.effect c)
  | executes hex => exact hexecutes hl hIt ht hex

theorem Reachable.inv {P : Call → Prop} (hs : Reachable P s) : Inv [] s := by
  obtain ⟨ls, -, hrun⟩ := hs
  exact hrun.invariant (fun hI hstep => hstep.inv hI) inv_init

end TimerManager

end Timer

end MToolkit

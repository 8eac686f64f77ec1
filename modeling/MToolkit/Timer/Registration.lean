import MToolkit.Timer.Visit

/-!
# Maps and wheel agree, between calls and in the loop

What the invariant says of the states a user can observe. Between calls the two
maps and the slots describe the same registrations
(`MToolkit.Timer.TimerManager.maps_agree`); and in the middle of `Executes` the
entries under the event of the node being visited are those of that node, so that
erasing by event – which is what the loop does – erases no other registration.
-/

namespace MToolkit

namespace Timer

open Buckets Fallible Lts

/-- The call is a `Start` of the event. -/
def Call.Begins (event : Event) : Call → Prop
  | .start event' _ _ => event' = event
  | _ => False

namespace TimerManager

/-- **Maps and wheel agree.** -/
structure MapsAgree (s : TimerManager) : Prop where
  /-- No node occurs twice in the slots. -/
  once : (contents s.slots).Nodup
  /-- Two nodes of the slots have different events. -/
  single : ∀ x ∈ contents s.slots, ∀ y ∈ contents s.slots,
    (s.node x).event = (s.node y).event → x = y
  /-- A node of a slot is the one both maps hold for its event. -/
  registered : ∀ x ∈ contents s.slots,
    s.managerMap (s.node x).event = some x ∧ s.normalMap (s.node x).event = some x
  /-- Both maps hold the same entries. -/
  same : ∀ event, s.normalMap event = s.managerMap event
  /-- A registered node that is valid and not paused is in a slot. -/
  running : ∀ event x, s.managerMap event = some x → (s.node x).isValid = true →
    (s.node x).isPause = false → x ∈ contents s.slots

variable {s m : TimerManager} {h : Handlers} {l p : List NodeId}

theorem Inv.mapsAgree (hI : Inv [] s) : MapsAgree s := by
  have hheld : ∀ {x}, x ∈ contents s.slots →
      x ∈ contents s.slots + (([] : List NodeId) : Multiset NodeId) := by simp
  refine ⟨by simpa using hI.nodup, fun x hx y hy => ?_, fun x hx => ?_,
    fun event => by rw [hI.agree.normal], fun event x hm hv hp => ?_⟩
  · exact event_inj (hI.registered x (hheld hx)) (hI.registered y (hheld hy))
  · rw [hI.agree.normal]
    exact ⟨hI.registered x (hheld hx), hI.registered x (hheld hx)⟩
  · by_contra hc
    have hpause := (hI.dropped hm (by simpa using hc)).1
    simp [hp] at hpause

/-- **The invariant in the middle of the loop**, when the nodes of `l` have been
visited and those of `p` have not. -/
theorem Inv.loop (hI : Inv (l ++ p) s) (hl : Late (l ++ p) s)
    (hm : l.foldlM (TimerManager.visit h) s = .ok m) : Inv p m ∧ Late p m := by
  have hstep : ∀ {x : NodeId} {l : List NodeId} {t t' : TimerManager},
      (Inv (x :: l ++ p) t ∧ Late (x :: l ++ p) t) → t.visit h x = .ok t' →
        Inv (l ++ p) t' ∧ Late (l ++ p) t' := fun hI hv =>
    (hI.1.visit_step hI.2 hv).imp_right And.left
  simpa using foldlM_preserves (I := fun l t => Inv (l ++ p) t ∧ Late (l ++ p) t) hstep l
    ⟨hI, hl⟩ hm

/-- Whenever the loop of `Executes` gets to a node – the nodes `l` of its list having
been visited – both maps hold that node for its event and `_pause` holds nothing, so
the entries it erases are the node's own. -/
def ErasesOwn (s : TimerManager) : Prop :=
  ∀ (h : Handlers) (handed : List NodeId) (s₁ : TimerManager), s.advance = .ok (handed, s₁) →
    ∀ (l p : List NodeId) (x : NodeId) (m : TimerManager), handed = l ++ x :: p →
      l.foldlM (visit h) s₁ = .ok m →
        m.managerMap (m.node x).event = some x ∧ m.normalMap (m.node x).event = some x ∧
          m.pauseMap (m.node x).event = none

theorem Inv.erasesOwn (hI : Inv [] s) : ErasesOwn s := by
  rintro h handed s₁ hadv l p x m rfl hm
  obtain ⟨handed, slots, ha⟩ := hI.advanced
  obtain ⟨rfl, rfl⟩ := Prod.mk.inj (Except.ok.inj (hadv.symm.trans ha.advance_eq))
  obtain ⟨hIm, -⟩ := ha.inv.loop ha.late hm
  have hreg := hIm.registered x (by simp)
  exact ⟨hreg, by rw [hIm.agree.normal, hreg], hIm.agree.pause _⟩

/-- **Maps and wheel agree** in every state that calls and `Executes` lead to, and the
loop of `Executes` erases no entry but those of the node it is visiting. -/
theorem maps_agree {P : Call → Prop} (hs : Reachable P s) : MapsAgree s ∧ ErasesOwn s :=
  ⟨hs.inv.mapsAgree, hs.inv.erasesOwn⟩

/-- The maps and the wheel after one `Start`. -/
theorem maps_agree_start :
    MapsAgree (init.call (.start (.given 0) 1 10)) ∧
      ErasesOwn (init.call (.start (.given 0) 1 10)) :=
  maps_agree (P := Call.Positive) (reachable_init.call (by simp [Call.Positive]))

/-! ### Registrations of an event of the caller

Where its `Start` is not called, an event only loses its registration. -/

/-- The second state has no registration of the event that the first had not. -/
def NoNew (event : Event) (s s' : TimerManager) : Prop :=
  ∀ x, s'.managerMap event = some x → s.managerMap event = some x

theorem NoNew.trans {event : Event} {s₁ s₂ s₃ : TimerManager} (h : NoNew event s₁ s₂)
    (h' : NoNew event s₂ s₃) : NoNew event s₁ s₃ := fun x hx => h x (h' x hx)

variable {s' : TimerManager} {id : ℕ} {x : NodeId}

/-- A call that is not its `Start` registers nothing for it: the function-wrapping `Start`
registers an event of its own. -/
theorem Effect.noNew {c : Call} (heff : Effect s c s') (hc : ¬c.Begins (.given id)) :
    NoNew (.given id) s s' := by
  intro x hm
  cases heff with
  | same => exact hm
  | destroyed => exact hm
  | paused => exact hm
  | refused => exact hm
  | @started _ event _ _ _ hstarts =>
    have hne : Event.given id ≠ event := by
      rcases hstarts with rfl | ⟨-, rfl⟩
      · exact fun he => hc he.symm
      · exact Event.noConfusion
    exact (Function.update_of_ne hne _ _).symm.trans hm

theorem Inv.trigger_noNew (hI : Inv (x :: p) s) (hv : (s.node x).isValid = true)
    (hh : h.All fun c => ¬c.Begins (.given id)) : NoNew (.given id) s (s.trigger h x) := by
  refine hI.preserves_trigger (I := NoNew (.given id) s) hv hh (fun hs => hs) (fun hs => hs) ?_
    (fun _ hs => hs) fun _ hm => hm
  exact fun hc _ hs heff => hs.trans (heff.noNew hc)

theorem Inv.visit_noNew (hI : Inv (x :: p) s) (hs : s.visit h x = .ok s')
    (hh : h.All fun c => ¬c.Begins (.given id)) : NoNew (.given id) s s' := by
  cases visit_cases hs with
  | dropped => exact fun _ hm => hm
  | erased => exact fun _ hm => (PartialMap.erase_eq_some.mp hm).2
  | triggered hv _ ht =>
    subst ht
    exact hI.trigger_noNew hv hh

theorem Inv.executes_noNew (hI : Inv [] s) (hs : s.executes h = .ok s')
    (hh : h.All fun c => ¬c.Begins (.given id)) : NoNew (.given id) s s' := by
  refine hI.preserves_executes (I := fun _ => NoNew (.given id) s) hs ?_ fun _ _ hm => hm
  exact fun hIt _ ht hv => ht.trans (hIt.visit_noNew hv hh)

/-- **A run without its `Start` registers nothing for the event.** -/
theorem Inv.run_noNew (hI : Inv [] s) {ls : List Label} (hrun : Run Step s ls s')
    (hls : ∀ l ∈ ls, l.All fun c => ¬c.Begins (.given id)) : NoNew (.given id) s s' := by
  refine (hI.preserves_run (I := NoNew (.given id) s) hrun hls ?_ ?_ fun _ hm => hm).2
  · exact fun hc _ ht heff => ht.trans (heff.noNew hc)
  · exact fun hh hIt ht hex => ht.trans (hIt.executes_noNew hex hh)

/-! ### When `Start` succeeds -/

theorem start_of_registered {event : Event} {count : Int64} {interval : ℤ}
    (hm : s.managerMap event = some x) : s.start event count interval = (.returned false, s) := by
  rw [start, if_pos (by simp [hm])]

/-- `Start` of an event that is not registered, within the limit. -/
theorem Inv.start_of_none {event : Event} (count : Int64) {interval : ℤ} (hI : Inv p s)
    (hm : s.managerMap event = none) (hint : interval ≤ 0xffffffff) :
    ∃ slot, addSlot s.tickTime (interval + s.tickTime) = some slot ∧
      s.start event count interval = (.returned true,
        { s with
          node := Function.update s.node s.nextNode
            (.make event count (interval + s.tickTime) interval)
          nextNode := s.nextNode + 1
          slots := push s.slots slot s.nextNode
          managerMap := Function.update s.managerMap event (some s.nextNode)
          normalMap := Function.update s.normalMap event (some s.nextNode) }) := by
  rcases hslot : addSlot s.tickTime (interval + s.tickTime) with _ | slot
  · have hlimit := addSlot_eq_none.mp hslot
    omega
  · refine ⟨slot, rfl, ?_⟩
    rw [start, if_neg (by simp [hm]),
      register_of_slot hm (by rw [hI.agree.normal, hm]) hslot]

/-- The event is in no map and can be started. -/
def Free (event : Event) (s : TimerManager) : Prop :=
  s.managerMap event = none ∧ s.normalMap event = none ∧ s.pauseMap event = none ∧
    ∀ count interval, interval ≤ 0xffffffff → (s.start event count interval).1 = .returned true

theorem Inv.free {event : Event} (hI : Inv [] s) (hm : s.managerMap event = none) :
    Free event s := by
  refine ⟨hm, by rw [hI.agree.normal, hm], hI.agree.pause event, fun count interval hlimit => ?_⟩
  obtain ⟨slot, -, hstart⟩ := hI.start_of_none count hm hlimit
  rw [hstart]

end TimerManager

end Timer

end MToolkit

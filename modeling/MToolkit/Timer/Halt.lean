import MToolkit.Timer.Registration
import MToolkit.Timer.Timely
import MToolkit.Timer.Track

/-!
# Pausing and destroying

`Pause` and `Destroy` only set a flag of the node; what becomes of it is decided by the
next visit. A node that is paused or invalid is **mute**: it is never triggered again,
whatever is called (`MToolkit.Timer.TimerManager.Mute.run`). For `Destroy` that is the
intention. For `Pause` it is not, but `_pause`, where `Resume` looks, is empty in every
state: `Pause` puts the entry back into `_normal`
(`MToolkit.Timer.TimerManager.not_pauseShifts`).

The two meet where a paused node has been dropped by its visit. It is in no slot then, so
no visit will ever see that it has been destroyed, and its event stays registered for
good; in every other state `Destroy` frees the event in time
(`MToolkit.Timer.TimerManager.destroy_frees_iff`).
-/

namespace MToolkit

namespace Timer

open Buckets Fallible Lts

namespace TimerManager

variable {s s' : TimerManager} {h : Handlers} {x y : NodeId} {p : List NodeId} {c : ℕ}

/-! ### A halted node is mute -/

/-- Node `x` is paused or invalid and has been triggered `c` times. -/
structure Mute (x : NodeId) (c : ℕ) (s : TimerManager) : Prop where
  lt : x < s.nextNode
  halted : (s.node x).isValid = false ∨ (s.node x).isPause = true
  triggers : s.triggers x = c

/-- Keeping the node and appending no trigger of it. -/
theorem Mute.of_keeps (hm : Mute x c s) (hnext : s.nextNode ≤ s'.nextNode)
    (hkeep : KeepsNode (s.node x) (s'.node x)) (hlog : s'.triggers x = s.triggers x) :
    Mute x c s' := by
  refine ⟨hm.lt.trans_le hnext, ?_, hlog.trans hm.triggers⟩
  refine hm.halted.imp (fun hv => ?_) hkeep.isPause
  rw [← Bool.not_eq_true] at hv ⊢
  exact fun hv' => hv (hkeep.isValid hv')

/-- Changing another node. -/
theorem keepsNode_update_of_ne {node : NodeId → TimerNode} {n : TimerNode} (hxy : x ≠ y) :
    KeepsNode (node x) (Function.update node y n x) := by
  rw [Function.update_of_ne hxy]
  exact .refl _

/-- A call triggers nothing. -/
theorem Effect.triggers {c : Call} (heff : Effect s c s') : s'.triggers x = s.triggers x := by
  cases heff <;> simp [TimerManager.triggers]

theorem Mute.effect {d : Call} (hm : Mute x c s) (heff : Effect s d s') : Mute x c s' :=
  hm.of_keeps heff.frame.nextNode (heff.frame.node x hm.lt) heff.triggers

theorem Mute.trigger (hI : Inv (y :: p) s) (hm : Mute x c s) (hv : (s.node y).isValid = true)
    (hxy : x ≠ y) : Mute x c (s.trigger h y) := by
  refine hI.preserves_trigger (P := fun _ => True) hv (fun _ _ _ _ => trivial) ?_ ?_
    (fun _ _ ht heff => ht.effect heff) ?_ hm
  · exact fun hs => hs.of_keeps le_rfl (keepsNode_update_of_ne hxy)
      (by simp [TimerManager.triggers, exhaust])
  · exact fun hs => hs.of_keeps le_rfl (keepsNode_update_of_ne hxy)
      (by simp [TimerManager.triggers, raise, hxy.symm])
  · refine fun _ ht => ht.of_keeps le_rfl (keepsNode_update_of_ne hxy) ?_
    simp only [TimerManager.triggers, settle, List.count_append]
    split_ifs <;> simp

/-- **A visit leaves a halted node mute**: it does not trigger it. -/
theorem Mute.visit (hI : Inv (y :: p) s) (hm : Mute x c s) (hs : s.visit h y = .ok s') :
    Mute x c s' := by
  cases visit_cases hs with
  | dropped => exact hm
  | erased => exact ⟨hm.lt, hm.halted, hm.triggers⟩
  | triggered hv hp ht =>
    subst ht
    have hxy : x ≠ y := by
      rintro rfl
      rcases hm.halted with hv' | hp'
      · simp [hv] at hv'
      · simp [hp] at hp'
    exact (Mute.trigger hI hm hv hxy).of_keeps le_rfl (keepsNode_update_of_ne hxy) rfl

theorem Mute.executes (hI : Inv [] s) (hm : Mute x c s) (hs : s.executes h = .ok s') :
    Mute x c s' := by
  refine hI.preserves_executes (I := fun _ => Mute x c) hs (fun hIt _ ht hv => ht.visit hIt hv) ?_
  exact fun _ => ⟨hm.lt, hm.halted, hm.triggers⟩

/-- **A halted node stays mute**, whatever is called. -/
theorem Mute.run (hI : Inv [] s) (hm : Mute x c s) {ls : List Label} (hrun : Run Step s ls s') :
    Mute x c s' := by
  refine (hI.preserves_run hrun (fun l _ => l.all_true) ?_ ?_ hm).2
  · exact fun _ _ hu heff => hu.effect heff
  · exact fun _ hIu hu hex => hu.executes hIu hex

/-! ### Pausing -/

/-- **`Resume` finds nothing**, in any state that calls lead to. -/
theorem Inv.resume_eq (hI : Inv p s) (event : Event) : s.resume event = (.returned false, s) := by
  rw [TimerManager.resume, hI.agree.pause event]

/-- **A paused node is never triggered again.** -/
theorem pause_mutes {P : Call → Prop} (hs : Reachable P s) {event : Event}
    (hm : s.managerMap event = some x) {ls : List Label} {u : TimerManager}
    (hrun : Run Step (s.pause event).2 ls u) : u.triggers x = s.triggers x := by
  have hI := hs.inv
  have heff : Effect s (.pause event) (s.pause event).2 := hI.agree.effect (.pause event)
  have hhalted : ((s.pause event).2.node x).isValid = false ∨
      ((s.pause event).2.node x).isPause = true := by
    rw [pause_of_some (by rw [hI.agree.normal, hm])]
    rcases hv : (s.node x).isValid with _ | _ <;> rcases hp : (s.node x).isPause with _ | _ <;>
      simp [perform, TimerNode.pause, hv, hp]
  have hmute : Mute x (s.triggers x) (s.pause event).2 :=
    ⟨(hI.lt_of_registered hm).trans_le heff.frame.nextNode, hhalted, heff.triggers⟩
  exact (hmute.run (heff.inv hI) hrun).triggers

/-- **What pausing for `k` ticks would promise** for node `x`, due at its tick `e`: both
calls succeed, the node is not triggered between them, and its next trigger comes once, in
the `Executes` of tick `e + k`. Calls on the event other than these two are not made. -/
structure PauseShifts (event : Event) (x : NodeId) (k : ℕ) (s : TimerManager) : Prop where
  paused : (s.pause event).1 = .returned true
  resumed : ∀ (ls : List Label) (u : TimerManager), Run Step (s.pause event).2 ls u →
    (∀ l ∈ ls, l.All fun c => ¬c.Touches event ∧ ¬c.Begins event) → u.tickTime = s.tickTime + k →
      (u.resume event).1 = .returned true ∧ u.triggers x = s.triggers x ∧
        ∀ (ms : List Label) (v : TimerManager), Run Step (u.resume event).2 ms v →
          (∀ l ∈ ms, l.All fun c => ¬c.Touches event ∧ ¬c.Begins event) →
            (v.tickTime ≤ (s.node x).expire + k → v.triggers x = s.triggers x) ∧
            ∀ (h : Handlers) (v' : TimerManager),
              h.All (fun c => ¬c.Touches event ∧ ¬c.Begins event) →
              v.tickTime = (s.node x).expire + k → v.executes h = .ok v' →
                v'.triggers x = s.triggers x + 1

/-- **Pausing never keeps that promise**, for any event, node and number of ticks, in any
state that calls with positive intervals lead to: `Resume` does not succeed. -/
theorem not_pauseShifts (hs : Reachable Call.Positive s) (event : Event) (x : NodeId) (k : ℕ) :
    ¬PauseShifts event x k s := by
  intro hshift
  have hp : Reachable Call.Positive (s.pause event).2 := hs.call (c := .pause event) trivial
  have htick : (s.pause event).2.tickTime = s.tickTime :=
    (hs.inv.agree.effect (.pause event)).frame.tickTime
  obtain ⟨u, hrun, hu⟩ := exists_run_idle hp k
  have hidle : ∀ {P : Call → Prop}, ∀ l ∈ List.replicate k (Label.executes idle), l.All P := by
    intro P l hl
    rw [List.eq_of_mem_replicate hl]
    exact idle_all
  have hret := (hshift.resumed _ u hrun hidle (by rw [hu, htick])).1
  rw [(hp.run hidle hrun).inv.resume_eq] at hret
  cases hret

/-- One timer, paused for 7 ticks. -/
theorem not_pauseShifts_start :
    ¬PauseShifts (.given 0) 0 7 (init.call (.start (.given 0) 1 10)) :=
  not_pauseShifts (reachable_init.call (by simp [Call.Positive])) _ _ _

/-- **A timer that is paused and resumed at once is not resumed**: a valid node that is
not paused, with a count left and due in 10 ticks. -/
theorem paused_not_resumed :
    let s := init.call (.start (.given 0) 1 10)
    Reachable Call.Positive s ∧ s.managerMap (.given 0) = some 0 ∧ (s.node 0).isValid = true ∧
      (s.node 0).isPause = false ∧ (s.node 0).count ≠ 0 ∧ s.tickTime ≤ (s.node 0).expire ∧
      (s.pause (.given 0)).1 = .returned true ∧
      ((s.pause (.given 0)).2.resume (.given 0)).1 = .returned false ∧
      ¬PauseShifts (.given 0) 0 0 s := by
  refine ⟨reachable_init.call (by simp [Call.Positive]), rfl, rfl, rfl, by decide, by decide, rfl,
    rfl, fun hshift => ?_⟩
  have hret := (hshift.resumed [] _ (.nil _) (by simp) rfl).1
  cases hret

/-! ### Destroying -/

/-- **What `Destroy` promises** for the node `x` registered for the event, due at its tick
`e`: it is never triggered again; and once the `Executes` of tick `e`, or of the tick of
the call if that is later, has run, the event is free – unless it was started anew. -/
structure DestroyFrees (event : Event) (x : NodeId) (s : TimerManager) : Prop where
  mute : ∀ (ls : List Label) (u : TimerManager), Run Step (s.destroy event) ls u →
    u.triggers x = s.triggers x
  freed : ∀ (ls : List Label) (u : TimerManager), Run Step (s.destroy event) ls u →
    (∀ l ∈ ls, l.All fun c => ¬c.Begins event) →
      max (s.node x).expire s.tickTime < u.tickTime → Free event u

/-- The state `Destroy` leaves: the node is invalid and nothing else has changed. -/
theorem destroy_spec {event : Event} (hm : s.managerMap event = some x) :
    ((s.destroy event).node x).isValid = false ∧
      ((s.destroy event).node x).expire = (s.node x).expire ∧
      (s.destroy event).slots = s.slots ∧ (s.destroy event).managerMap = s.managerMap ∧
      (s.destroy event).tickTime = s.tickTime ∧ (s.destroy event).nextNode = s.nextNode := by
  rw [destroy_of_some hm]
  rcases hv : (s.node x).isValid with _ | _ <;> simp [perform, TimerNode.destroy, hv]

/-- Node `x` is invalid and on its way out: it waits in the wheel for the visit at tick
`e`, or it has been erased. -/
structure Leaving (x : NodeId) (e : ℤ) (s : TimerManager) : Prop where
  lt : x < s.nextNode
  invalid : (s.node x).isValid = false
  expire : (s.node x).expire = e
  place : (x ∈ contents s.slots ∧ s.tickTime ≤ e) ∨
    (x ∉ contents s.slots ∧ ∀ event, s.managerMap event ≠ some x)

variable {e : ℤ}

theorem Leaving.of_spared (hl : Leaving x e s) (hsp : Spared x s s') : Leaving x e s' := by
  refine ⟨hl.lt.trans_le hsp.nextNode, hsp.node ▸ hl.invalid, hsp.node ▸ hl.expire, ?_⟩
  rcases hl.place with ⟨hin, hle⟩ | ⟨hout, hgone⟩
  · exact .inl ⟨hsp.slots.mpr hin, hsp.tickTime ▸ hle⟩
  · exact .inr ⟨fun hc => hout (hsp.slots.mp hc),
      fun event hm => hgone event ((hsp.registered event).mp hm)⟩

theorem Leaving.executes (hI : Inv [] s) (hl : Leaving x e s) (hs : s.executes h = .ok s') :
    Leaving x e s' := by
  have hsp := hI.executes_spared (x := x) (P := fun _ => True) hs hl.lt
  rcases hl.place with ⟨hin, hle⟩ | ⟨hout, hgone⟩
  · by_cases hlt : s.tickTime < (s.node x).expire
    · have hnext : Leaving x e { s with tickTime := s.tickTime + 1 } :=
        ⟨hl.lt, hl.invalid, hl.expire, .inl ⟨hin, by have := hl.expire; simp only; omega⟩⟩
      exact hnext.of_spared (hsp (fun _ => hlt) (.inl hl.invalid) fun _ _ _ _ => trivial)
    · -- the visit at tick `e` erases it
      obtain ⟨-, hnext, hnode, -, hout, hgone⟩ :=
        hI.executes_erased hs hin (not_lt.mp hlt) hl.invalid
      exact ⟨hl.lt.trans_le hnext, hnode ▸ hl.invalid, hnode ▸ hl.expire, .inr ⟨hout, hgone⟩⟩
  · have hnext : Leaving x e { s with tickTime := s.tickTime + 1 } :=
      ⟨hl.lt, hl.invalid, hl.expire, .inr ⟨hout, hgone⟩⟩
    exact hnext.of_spared (hsp (fun hc => absurd hc hout) (.inl hl.invalid) fun _ _ _ _ => trivial)

theorem Leaving.run (hI : Inv [] s) (hl : Leaving x e s) {ls : List Label}
    (hrun : Run Step s ls s') : Inv [] s' ∧ Leaving x e s' := by
  refine hI.preserves_run (P := fun _ => True) hrun (fun l _ => l.all_true) ?_ ?_ hl
  · intro u c u' hc hIu hu heff
    have hq : Quiet (fun _ => True) u x := .inl hu.invalid
    exact hu.of_spared (heff.spared_of_quiet hIu hu.lt hq hc)
  · exact fun _ hIu hu hex => hu.executes hIu hex

/-- A node that its visit has dropped while it was paused stays registered when it is
destroyed: the next `Executes` does not see it. -/
theorem not_destroyFrees (hs : Reachable Call.Positive s) {event : Event}
    (hm : s.managerMap event = some x) (hlate : (s.node x).expire < s.tickTime) :
    ¬DestroyFrees event x s := by
  intro hfree
  obtain ⟨hv, hexp, hslots, hmap, htick, hnext⟩ := destroy_spec hm
  have hd : Reachable Call.Positive (s.destroy event) := hs.call (c := .destroy event) trivial
  obtain ⟨u, hu, -⟩ := hd.timely.executes hd.inv idle_all
  have hsp := hd.inv.executes_spared (x := x) (P := fun _ => True) hu
    (hnext ▸ hs.inv.lt_of_registered hm) (fun hin => ?_) (.inl hv) fun _ _ _ _ => trivial
  · have hgone := (hfree.freed _ u (.single (.executes hu)) (by simp [Label.All, idle_all])
      (by rw [hd.inv.executes_tick hu, htick]; omega)).1
    rw [(hsp.registered event).mpr (hmap ▸ hm)] at hgone
    cases hgone
  · have hahead := hd.timely.ahead x hin
    omega

/-- **When `Destroy` frees the registration.** In every state that calls with positive
intervals lead to, `Destroy` of a registered event of the caller keeps its promise exactly
if the node has not been dropped, that is, unless it is paused and its time has passed. -/
theorem destroy_frees_iff (hs : Reachable Call.Positive s) {id : ℕ}
    (hm : s.managerMap (.given id) = some x) :
    DestroyFrees (.given id) x s ↔
      ¬((s.node x).isPause = true ∧ (s.node x).expire < s.tickTime) := by
  refine ⟨fun hfree hc => not_destroyFrees hs hm hc.2 hfree, fun hc => ?_⟩
  obtain ⟨hv, hexp, hslots, hmap, htick, hnext⟩ := destroy_spec hm
  have hI := hs.inv
  have hd : Reachable Call.Positive (s.destroy (.given id)) :=
    hs.call (c := .destroy (.given id)) trivial
  have hlt : x < (s.destroy (.given id)).nextNode := hnext ▸ hI.lt_of_registered hm
  -- the node is in the wheel, so a visit will see that it is invalid
  have hin : x ∈ contents s.slots := by
    by_contra hout
    exact hc (hI.dropped hm (by simpa using hout))
  have hleaving : Leaving x (s.node x).expire (s.destroy (.given id)) :=
    ⟨hlt, hv, hexp, .inl ⟨hslots ▸ hin, htick ▸ hs.timely.ahead x hin⟩⟩
  refine ⟨fun ls u hrun => ?_, fun ls u hrun hls hlate => ?_⟩
  · have heff : Effect s (.destroy (.given id)) (s.destroy (.given id)) :=
      hI.agree.effect (.destroy (.given id))
    exact (Mute.run hd.inv ⟨hlt, .inl hv, heff.triggers⟩ hrun).triggers
  · obtain ⟨hIu, hu⟩ := hleaving.run hd.inv hrun
    refine hIu.free (Option.eq_none_iff_forall_ne_some.mpr fun y hy => ?_)
    have hy₁ := hd.inv.run_noNew hrun hls y hy
    rw [hmap, hm] at hy₁
    obtain rfl := Option.some.inj hy₁
    rcases hu.place with ⟨-, hle⟩ | ⟨-, hgone⟩
    · exact absurd ((le_max_left _ _).trans_lt hlate) (not_lt.mpr hle)
    · exact hgone _ hy

/-- A running timer. -/
theorem destroy_frees_iff_start :
    let s := init.call (.start (.given 0) 1 10)
    DestroyFrees (.given 0) 0 s ↔
      ¬((s.node 0).isPause = true ∧ (s.node 0).expire < s.tickTime) :=
  destroy_frees_iff (reachable_init.call (by simp [Call.Positive])) rfl

/-- **A destroyed timer that is never freed**: started with period 1, paused, and destroyed
after the two `Executes` that drop it. After the next one it is still registered, and
`Start` refuses its event. -/
theorem destroyed_not_freed :
    ∃ s₁ s u,
      ((init.call (.start (.given 0) 1 1)).call (.pause (.given 0))).executes idle = .ok s₁ ∧
      s₁.executes idle = .ok s ∧ (s.destroy (.given 0)).executes idle = .ok u ∧
      Reachable Call.Positive s ∧ s.managerMap (.given 0) = some 0 ∧
      max (s.node 0).expire s.tickTime < u.tickTime ∧ u.managerMap (.given 0) = some 0 ∧
      (u.start (.given 0) 1 1).1 = .returned false ∧ ¬DestroyFrees (.given 0) 0 s := by
  refine ⟨_, _, _, rfl, rfl, rfl, ?_, rfl, by decide, rfl, rfl, fun hfree => ?_⟩
  · have hstart : Reachable Call.Positive (init.call (.start (.given 0) 1 1)) :=
      reachable_init.call (by simp [Call.Positive])
    have hpause := hstart.call (c := .pause (.given 0)) trivial
    exact (hpause.executes idle_all rfl).executes idle_all rfl
  · have hgone := (hfree.freed [.executes idle] _ (.single (.executes rfl))
      (by simp [Label.All, idle_all]) (by decide)).1
    cases hgone

end TimerManager

end Timer

end MToolkit

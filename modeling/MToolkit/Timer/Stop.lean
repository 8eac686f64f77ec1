import MToolkit.Timer.Track

/-!
# One stop per node

`OnStop` is called from three places: `Destroy`, the end of `Trigger` when the count
reaches zero, and the destructor. The first and the last look at the validity flag; the
second does not. So a node that is destroyed by its own `OnTrigger` is stopped a second
time if that was its last count – and only then:
`MToolkit.Timer.TimerManager.LastTriggerSpares` excludes just this, and over runs that
satisfy it a node that has been stopped is silent for the rest of its life, the destructor
of the manager included (`MToolkit.Timer.TimerManager.stops_once`).
-/

namespace MToolkit

namespace Timer

open Buckets Fallible Lts

/-- No node calls `OnStop` or `OnTrigger` once it has called `OnStop`. -/
def StopsOnce (log : List Callback) : Prop :=
  ∀ (x : NodeId) (forced : Bool) (l l' : List Callback), log = l ++ .onStop x forced :: l' →
    (∀ forced', .onStop x forced' ∉ l') ∧ .onTrigger x ∉ l'

/-- The second callback is not one of a node that the first has stopped. -/
def SilentAfter (c c' : Callback) : Prop := ∀ x forced, c = .onStop x forced → c'.node ≠ x

/-- Silence after a stop excludes a second stop and a later trigger. -/
theorem stopsOnce_of_pairwise {log : List Callback} (h : log.Pairwise SilentAfter) :
    StopsOnce log := by
  rintro x forced l l' rfl
  have hafter : ∀ c ∈ l', c.node ≠ x := fun c hc =>
    (List.pairwise_cons.mp (List.pairwise_append.mp h).2.1).1 c hc x forced rfl
  exact ⟨fun forced' hc => hafter _ hc rfl, fun hc => hafter _ hc rfl⟩

namespace TimerManager

variable {s s' : TimerManager} {h : Handlers} {x y : NodeId} {p : List NodeId}

/-! ### The invariant -/

/-- **A node that has been stopped is silent**: it is invalid, and has called nothing
since. -/
structure Hushed (s : TimerManager) : Prop where
  silent : s.log.Pairwise SilentAfter
  invalid : ∀ x forced, .onStop x forced ∈ s.log → (s.node x).isValid = false

theorem hushed_init : Hushed init := ⟨by simp [init], by simp [init]⟩

/-- What a valid node calls comes after no stop of it. -/
theorem Hushed.append (hs : Hushed s) {cs : List Callback} (hv : (s.node y).isValid = true)
    (hcs : ∀ c ∈ cs, c.node = y) (hlen : cs.length ≤ 1) :
    (s.log ++ cs).Pairwise SilentAfter := by
  refine List.pairwise_append.mpr ⟨hs.silent, ?_, ?_⟩
  · rcases cs with _ | ⟨c, _ | _⟩
    · exact .nil
    · exact List.pairwise_singleton _ _
    · simp at hlen
  · rintro a ha b hb x forced rfl hx
    have hinv := hs.invalid x forced ha
    rw [← hx, hcs b hb, hv] at hinv
    cases hinv

/-- **Changing a valid node**, with at most one callback of its own: if that is a stop, it
becomes invalid. -/
theorem Hushed.setNode (hs : Hushed s) {n : TimerNode} {cs : List Callback}
    (hv : (s.node y).isValid = true) (hcs : ∀ c ∈ cs, c.node = y) (hlen : cs.length ≤ 1)
    (hstop : ∀ forced, .onStop y forced ∈ cs → n.isValid = false) :
    Hushed { s with node := Function.update s.node y n, log := s.log ++ cs } := by
  refine ⟨hs.append hv hcs hlen, fun x forced hx => ?_⟩
  by_cases hxy : x = y
  · subst hxy
    rcases List.mem_append.mp hx with hx | hx
    · rw [hs.invalid x forced hx] at hv
      cases hv
    · simpa using hstop forced hx
  · rcases List.mem_append.mp hx with hx | hx
    · simpa [hxy] using hs.invalid x forced hx
    · exact absurd (hcs _ hx) hxy

/-- **A call keeps stopped nodes silent.** -/
theorem Effect.hushed {c : Call} (heff : Effect s c s') (hI : Inv p s) (hs : Hushed s) :
    Hushed s' := by
  -- the next node to be made has called nothing
  have hfresh : ∀ c ∈ s.log, c.node ≠ s.nextNode := fun c hc => (hI.logged c hc).ne
  cases heff with
  | same => exact hs
  | destroyed _ hv => exact hs.setNode hv (by simp [Callback.node]) (by simp) (by simp)
  | paused _ hv => exact hs.setNode hv (by simp [Callback.node]) (by simp) (by simp)
  | refused =>
    refine ⟨List.pairwise_append.mpr ⟨hs.silent, List.pairwise_singleton _ _, ?_⟩, ?_⟩
    · rintro a ha b hb x forced rfl hx
      rw [List.mem_singleton.mp hb] at hx
      exact hfresh _ ha hx.symm
    · intro x forced hx
      rcases List.mem_append.mp hx with hx | hx
      · simpa [show x ≠ s.nextNode from hfresh _ hx] using hs.invalid x forced hx
      · obtain ⟨rfl, -⟩ := Callback.onStop.inj (List.mem_singleton.mp hx)
        simp
  | started =>
    refine ⟨hs.silent, fun x forced hx => ?_⟩
    simpa [show x ≠ s.nextNode from hfresh _ hx] using hs.invalid x forced hx

/-- Calls that do not destroy an event leave its node valid. -/
theorem Effect.isValid {c : Call} (heff : Effect s c s') (hI : Inv p s) (hx : x < s.nextNode)
    (hv : (s.node x).isValid = true) (hc : c ≠ .destroy (s.node x).event) :
    (s'.node x).isValid = true := by
  cases heff with
  | same => exact hv
  | @destroyed event y hm =>
    have hne : x ≠ y := by
      rintro rfl
      exact hc (congrArg Call.destroy (hI.keyed hm).1.symm)
    simpa [hne] using hv
  | @paused event y hm hv' =>
    by_cases hxy : x = y
    · subst hxy
      simpa using hv
    · simpa [hxy] using hv
  | refused => simpa [hx.ne] using hv
  | started => simpa [hx.ne] using hv

theorem Inv.calls_isValid (hI : Inv p s) (hx : x < s.nextNode) (hv : (s.node x).isValid = true)
    {cs : List Call} (hcs : .destroy (s.node x).event ∉ cs) :
    ((s.calls cs).node x).isValid = true := by
  refine (hI.preserves_calls (I := fun t => Frame s t ∧ (t.node x).isValid = true)
    (P := fun c => c ≠ .destroy (s.node x).event) ?_ ?_ ⟨.refl s, hv⟩).2.2
  · rintro t c t' hc hIt ⟨hf, hvt⟩ heff
    refine ⟨hf.trans heff.frame, heff.isValid hIt (hx.trans_le hf.nextNode) hvt ?_⟩
    rwa [(hf.node x hx).event]
  · rintro c hc rfl
    exact hcs hc

/-- The end of `Trigger`, where the last count finds the node valid. -/
theorem Hushed.settle (hs : Hushed s) (hlast : (s.node x).count = 1 → (s.node x).isValid = true) :
    Hushed (s.settle x) := by
  rcases hv : (s.node x).isValid with _ | _
  · have h1 : (s.node x).count ≠ 1 := by
      rintro h1
      rw [hlast h1] at hv
      cases hv
    refine ⟨by simpa [TimerManager.settle, h1] using hs.silent, fun y forced hy => ?_⟩
    by_cases hyx : y = x
    · subst hyx
      simp [hv]
    · have hy' : .onStop y forced ∈ s.log := by simpa [TimerManager.settle, h1] using hy
      simpa [TimerManager.settle, hyx] using hs.invalid y forced hy'
  · refine hs.setNode hv ?_ ?_ ?_ <;> by_cases h1 : (s.node x).count = 1 <;>
      simp [h1, Callback.node]

/-! ### The condition -/

/-- If this visit of node `x` is its last trigger, `OnTrigger` does not destroy its own
event. -/
def LastTriggerSpares (h : Handlers) (s : TimerManager) (x : NodeId) : Prop :=
  (s.node x).isValid = true → (s.node x).isPause = false → (s.node x).count = 1 →
    .destroy (s.node x).event ∉ h (s.raise x) (s.node x).event

/-- The condition holds at every turn of a loop over the list. -/
def LoopAll (Q : TimerManager → NodeId → Prop) (h : Handlers) : List NodeId → TimerManager → Prop
  | [], _ => True
  | x :: l, s => Q s x ∧ ∀ s', s.visit h x = .ok s' → LoopAll Q h l s'

/-- No last trigger in this step destroys its own event. -/
def Careful (s : TimerManager) : Label → Prop
  | .call _ => True
  | .executes h => ∀ handed s₁, s.advance = .ok (handed, s₁) →
      LoopAll (LastTriggerSpares h) h handed s₁

/-- The steps that are careful. -/
def CarefulStep (s : TimerManager) (l : Label) (s' : TimerManager) : Prop :=
  Step s l s' ∧ Careful s l

/-! ### The invariant through a run -/

theorem Hushed.visit (hI : Inv (x :: p) s) (hs : Hushed s) (hlast : LastTriggerSpares h s x)
    (hvisit : s.visit h x = .ok s') : Hushed s' := by
  cases visit_cases hvisit with
  | dropped => exact hs
  | erased => exact ⟨hs.silent, hs.invalid⟩
  | triggered hv hp ht =>
    subst ht
    -- putting the node back changes no flag
    have hback : ∀ {t : TimerManager} {e : ℤ} {slot : Slot}, Hushed t →
        Hushed { t with
          node := Function.update t.node x { t.node x with expire := e }
          slots := push t.slots slot x } := by
      intro t e slot ht
      refine ⟨ht.silent, fun y forced hy => ?_⟩
      by_cases hyx : y = x
      · subst hyx
        simpa using ht.invalid y forced hy
      · simpa [hyx] using ht.invalid y forced hy
    refine hback ?_
    by_cases hc : (s.node x).count = 0
    · rw [trigger_of_zero hv hc]
      exact hs.setNode hv (by simp [Callback.node]) (by simp) (by simp)
    · rw [trigger_of_count hv hc]
      set cs := h (s.raise x) (s.node x).event with hcs
      have hraise : Hushed (s.raise x) :=
        hs.setNode hv (by simp [Callback.node]) (by simp) (by simp)
      have hu : Hushed ((s.raise x).calls cs) := (hI.raise.preserves_calls (P := fun _ => True)
        (fun _ hIt ht heff => heff.hushed hIt ht) (fun _ _ => trivial) hraise).2
      have hkeep := (calls_frame hI.raise.agree cs).node x (hI.lt (by simp))
      -- at its last trigger the node is still valid when `OnTrigger` returns
      refine hu.settle fun h1 => hI.raise.calls_isValid (hI.lt (by simp)) (by simpa using hv) ?_
      rw [hkeep.count, raise_node_self] at h1
      rw [raise_node_self]
      exact hlast hv hp h1

theorem Hushed.executes (hI : Inv [] s) (hs : Hushed s) (hex : s.executes h = .ok s')
    (hcareful : Careful s (.executes h)) : Hushed s' := by
  refine (hI.preserves_executes
    (I := fun l t => Hushed t ∧ LoopAll (LastTriggerSpares h) h l t) hex ?_ ?_).1
  · rintro x p t t' hIt hlt ⟨ht, hspares, hloop⟩ hv
    exact ⟨ht.visit hIt hspares hv, hloop t' hv⟩
  · exact fun ha => ⟨⟨hs.silent, hs.invalid⟩, hcareful _ _ ha.advance_eq⟩

theorem Hushed.run (hI : Inv [] s) (hs : Hushed s) {ls : List Label}
    (hrun : Run CarefulStep s ls s') : Inv [] s' ∧ Hushed s' := by
  refine hrun.invariant (I := fun u => Inv [] u ∧ Hushed u) ?_ ⟨hI, hs⟩
  rintro u l u' ⟨hIu, hu⟩ ⟨hstep, hcareful⟩
  refine ⟨hstep.inv hIu, ?_⟩
  cases hstep with
  | call c => exact (hIu.agree.effect c).hushed hIu hu
  | executes hex => exact hu.executes hIu hex hcareful

/-- A destructor call keeps stopped nodes silent. -/
theorem Hushed.release (hs : Hushed s) : Hushed (s.release x) := by
  rw [TimerManager.release]
  split_ifs
  · exact hs
  · rcases hv : (s.node x).isValid with _ | _
    · rwa [perform_eq_self (by simp [TimerNode.destroy, hv])]
    · have hstop : Hushed { s with
          node := Function.update s.node x { s.node x with isValid := false }
          log := s.log ++ [.onStop x true] } :=
        hs.setNode hv (by simp [Callback.node]) (by simp) (by simp)
      simpa [perform, TimerNode.destroy, hv] using hstop

theorem Hushed.shutdown (hs : Hushed s) : Hushed s.shutdown := by
  have hfold : ∀ (l : List NodeId) {t : TimerManager}, Hushed t →
      Hushed (l.foldl TimerManager.release t) := by
    intro l
    induction l with
    | nil => exact id
    | cons x l ih => exact fun ht => ih ht.release
  exact hfold _ ⟨hs.silent, hs.invalid⟩

/-- **One stop per registration.** In every run in which no last trigger of a node destroys
its own event, no node stops twice or is triggered after it has stopped, whatever else the
calls and the handlers do – and that is still so when the manager has been destroyed, and
every node with it. -/
theorem stops_once {ls : List Label} {u : TimerManager} (hrun : Run CarefulStep init ls u) :
    StopsOnce u.log ∧ StopsOnce u.shutdown.log := by
  obtain ⟨-, hu⟩ := hushed_init.run inv_init hrun
  exact ⟨stopsOnce_of_pairwise hu.silent, stopsOnce_of_pairwise hu.shutdown.silent⟩

/-- Handlers whose `OnTrigger` destroys its own event. -/
def selfDestroy : Handlers := fun _ event => [.destroy event]

/-- A timer of three counts that destroys itself at its first trigger. -/
theorem stops_once_destroy :
    ∃ s u, (init.call (.start (.given 0) 3 1)).executes selfDestroy = .ok s ∧
      s.executes selfDestroy = .ok u ∧
      u.log = [.onTrigger 0, .onStop 0 true] ∧ StopsOnce u.log ∧ StopsOnce u.shutdown.log := by
  obtain ⟨s, u, t₁, t₂, hs, hu, hlog, h₁, h₂, hcount⟩ : ∃ s u t₁ t₂,
      (init.call (.start (.given 0) 3 1)).executes selfDestroy = .ok s ∧
        s.executes selfDestroy = .ok u ∧
        u.log = [.onTrigger 0, .onStop 0 true] ∧
        (init.call (.start (.given 0) 3 1)).advance = .ok ([], t₁) ∧
        s.advance = .ok ([0], t₂) ∧ (t₂.node 0).count ≠ 1 :=
    ⟨_, _, _, _, rfl, rfl, rfl, rfl, rfl, by decide⟩
  refine ⟨s, u, hs, hu, hlog, stops_once (.cons ⟨.call (.start (.given 0) 3 1), trivial⟩
    (.cons ⟨.executes hs, fun l t hadv => ?_⟩ (.single ⟨.executes hu, fun l t hadv => ?_⟩)))⟩
  · obtain ⟨rfl, rfl⟩ := Prod.mk.inj (Except.ok.inj (h₁.symm.trans hadv))
    trivial
  · obtain ⟨rfl, rfl⟩ := Prod.mk.inj (Except.ok.inj (h₂.symm.trans hadv))
    exact ⟨fun _ _ h1 => absurd h1 hcount, fun _ _ => trivial⟩

/-- **A node that stops twice**: with one count, its `OnTrigger` destroys its own event. -/
theorem stops_twice :
    ∃ s u, (init.call (.start (.given 0) 1 1)).executes selfDestroy = .ok s ∧
      s.executes selfDestroy = .ok u ∧
      u.log = [.onTrigger 0, .onStop 0 true, .onStop 0 false] ∧ ¬StopsOnce u.log := by
  refine ⟨_, _, rfl, rfl, rfl, fun honce => ?_⟩
  exact (honce 0 true [.onTrigger 0] [.onStop 0 false] rfl).1 false (by simp)

end TimerManager

end Timer

end MToolkit

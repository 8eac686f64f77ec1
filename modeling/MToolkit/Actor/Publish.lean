import MToolkit.Actor.Handle
import MToolkit.Library.Sequences

/-!
# Publication

A `Publish` goes through the subscribers with the mutex of the `Handle` held, so that the
publications have an order, that of the calls, and every queue holds, or has held, its own in
that order (`MToolkit.Handle.publish_once_in_order`). An active object is subscribed to a signal
if the last of its `Subscribe`s and `UnSubscribe`s for it was a `Subscribe`
(`MToolkit.Handle.Subscribed`); how many there were makes no difference.

In the middle of a `Publish` some subscribers have the publication and for others it is still
to come; the invariant counts what is to come as pushed.
-/

namespace MToolkit

variable {κ ι : Type}

/-- The call is a `Subscribe` or an `UnSubscribe` of this active object for this signal. -/
def HubCall.Concerns (active : κ) (event : Signal) : HubCall κ → Prop
  | .subscribe active' event' => active' = active ∧ event' = event
  | .unSubscribe active' event' => active' = active ∧ event' = event
  | .publish _ => False

namespace Handle

open Lts List

/-- **Subscribed**: there was a `Subscribe`, and no such call has come after it. -/
def Subscribed (calls : List (HubCall κ)) (active : κ) (event : Signal) : Prop :=
  ∃ before after, calls = before ++ .subscribe active event :: after ∧
    ∀ c ∈ after, ¬c.Concerns active event

/-- The active object was subscribed to the signal of the publication when its `Publish` took
the mutex. -/
def Due (calls : List (HubCall κ)) (active : κ) (publication : Publication) : Prop :=
  ∃ before after, calls = before ++ .publish publication :: after ∧
    Subscribed before active publication.signal

variable {calls : List (HubCall κ)} {c : HubCall κ} {active : κ} {event : Signal}
  {publication : Publication}

theorem not_subscribed_nil : ¬Subscribed ([] : List (HubCall κ)) active event := by
  rintro ⟨before, after, h, -⟩
  simp at h

theorem not_due_nil : ¬Due ([] : List (HubCall κ)) active publication := by
  rintro ⟨before, after, h, -⟩
  simp at h

/-- **One more call** decides whether it is subscribed if it concerns it. -/
theorem subscribed_snoc : Subscribed (calls ++ [c]) active event ↔
    c = .subscribe active event ∨ ¬c.Concerns active event ∧ Subscribed calls active event := by
  constructor
  · rintro ⟨before, after, hcalls, hnone⟩
    rcases snoc_eq_append_cons.mp hcalls with ⟨-, -, rfl⟩ | ⟨after', rfl, rfl⟩
    · exact .inl rfl
    · refine .inr ⟨hnone c (by simp), before, after', rfl, fun c' hc' => hnone c' ?_⟩
      exact mem_append_left _ hc'
  · rintro (rfl | ⟨hc, before, after, rfl, hnone⟩)
    · exact ⟨calls, [], rfl, fun c hc => absurd hc not_mem_nil⟩
    · refine ⟨before, after ++ [c], by simp, fun c' hc' => ?_⟩
      rcases mem_append.mp hc' with hc' | hc'
      · exact hnone c' hc'
      · rwa [mem_singleton.mp hc']

/-- **One more call** makes nothing due but what it publishes. -/
theorem due_snoc : Due (calls ++ [c]) active publication ↔
    c = .publish publication ∧ Subscribed calls active publication.signal ∨
      Due calls active publication := by
  constructor
  · rintro ⟨before, after, hcalls, hsub⟩
    rcases snoc_eq_append_cons.mp hcalls with ⟨-, rfl, rfl⟩ | ⟨after', rfl, rfl⟩
    · exact .inl ⟨rfl, hsub⟩
    · exact .inr ⟨before, after', rfl, hsub⟩
  · rintro (⟨rfl, hsub⟩ | ⟨before, after, rfl, hsub⟩)
    · exact ⟨calls, [], rfl, hsub⟩
    · exact ⟨before, after ++ [c], by simp, hsub⟩

theorem published_snoc : published (calls ++ [c]) =
    published calls ++ match c with
      | .publish publication => [publication]
      | _ => [] := by
  rw [published, filterMap_append]
  cases c <;> rfl

variable {s s' : Handle κ ι}

/-- The publication in progress, if it is still to come to this active object. -/
def coming [DecidableEq κ] (s : Handle κ ι) (active : κ) : List Publication :=
  match s.publishing with
  | some (publication, actives) => if active ∈ actives then [publication] else []
  | none => []

variable [DecidableEq κ]

/-! ### Who is subscribed -/

theorem mem_subscribers_subscribe (s : Handle κ ι) (active a : κ) (event e : Signal) :
    a ∈ (s.subscribe active event).subscribers e ↔
      (active = a ∧ event = e) ∨ a ∈ s.subscribers e := by
  rw [subscribers, subscribe]
  by_cases he : e = event
  · subst he
    by_cases hnone : s.subscribeMap e = none
    · simp [hnone, subscribers, eq_comm]
    · obtain ⟨actives, hsome⟩ := Option.ne_none_iff_exists'.mp hnone
      simp [hsome, subscribers, eq_comm]
  · by_cases hnone : s.subscribeMap event = none
    · simp [hnone, he, Ne.symm he, subscribers]
    · simp [hnone, he, Ne.symm he, subscribers]

theorem mem_subscribers_unSubscribe (s : Handle κ ι) (active a : κ) (event e : Signal) :
    a ∈ (s.unSubscribe active event).subscribers e ↔
      ¬(active = a ∧ event = e) ∧ a ∈ s.subscribers e := by
  rw [subscribers, unSubscribe]
  by_cases he : e = event
  · subst he
    cases hmap : s.subscribeMap e with
    | none => simp [hmap, subscribers]
    | some actives => simp [hmap, subscribers, eq_comm]
  · simp [he, Ne.symm he, subscribers]

/-! ### What is pushed -/

/-- **The hub serves its subscribers.** -/
structure Serving (s : Handle κ ι) : Prop where
  subscribed : ∀ active event, active ∈ s.subscribers event ↔ Subscribed s.calls active event
  /-- Publications are numbered in the order of the calls. -/
  numbered : (published s.calls).map Publication.number = range (published s.calls).length
  /-- No subscriber is gone to twice. -/
  nodup : ∀ publication actives, s.publishing = some (publication, actives) → actives.Nodup
  /-- Pushes are in the order of the calls. -/
  order : ∀ active, s.received active ++ s.coming active <+ published s.calls
  due : ∀ active publication,
    publication ∈ s.received active ++ s.coming active ↔ Due s.calls active publication

theorem serving_init : Serving (init : Handle κ ι) where
  subscribed := fun _ _ => iff_of_false (Finset.notMem_empty _) not_subscribed_nil
  numbered := rfl
  nodup := nofun
  order := fun _ => Sublist.slnil
  due := fun _ _ => iff_of_false not_mem_nil not_due_nil

/-- **A call changes who is subscribed**, and nothing is pushed. -/
theorem Serving.call (h : Serving s) {subscribeMap : Signal → Option (Finset κ)} {c : HubCall κ}
    (hc : ∀ publication, c ≠ .publish publication)
    (hsub : ∀ active event, active ∈ (subscribeMap event).getD ∅ ↔
      c = .subscribe active event ∨ ¬c.Concerns active event ∧ active ∈ s.subscribers event) :
    Serving { s with subscribeMap := subscribeMap, calls := s.calls ++ [c] } := by
  have hpublished : published (s.calls ++ [c]) = published s.calls := by
    rw [published_snoc]
    cases c with
    | publish publication => exact absurd rfl (hc publication)
    | _ => exact append_nil _
  refine ⟨fun active event => ?_, ?_, h.nodup, fun active => ?_, fun active publication => ?_⟩
  · rw [subscribed_snoc, ← h.subscribed]
    exact hsub active event
  · rw [hpublished]
    exact h.numbered
  · rw [hpublished]
    exact h.order active
  · rw [due_snoc, or_iff_right fun hpub => hc publication hpub.1]
    exact h.due active publication

/-- **`Publish` finds the subscribers.** -/
theorem Serving.publish (h : Serving s) (hfree : s.Unlocked) {actives : List κ}
    (hactives : (actives : Multiset κ) = (s.subscribers event).val) :
    Serving (s.publish event actives) := by
  set publication : Publication := ⟨(published s.calls).length, event⟩ with hpub
  have hmem : ∀ active, active ∈ actives ↔ Subscribed s.calls active event := by
    intro active
    rw [← h.subscribed, ← Finset.mem_val, ← hactives, Multiset.mem_coe]
  have hpublished : published (s.publish event actives).calls =
      published s.calls ++ [publication] := published_snoc
  -- nothing is in progress while the mutex is free
  have hold : ∀ active, s.coming active = [] := by
    intro active
    rw [coming, hfree]
  have hcoming : ∀ active, (s.publish event actives).coming active =
      if active ∈ actives then [publication] else [] := fun _ => rfl
  refine ⟨fun active event' => ?_, ?_, fun p l hl => ?_, fun active => ?_, fun active p => ?_⟩
  · rw [Handle.publish, subscribed_snoc, ← h.subscribed]
    simp [HubCall.Concerns, subscribers]
  · rw [hpublished, map_append, h.numbered, length_append, length_singleton, range_succ]
    rfl
  · obtain ⟨-, rfl⟩ := Prod.mk.inj (Option.some.inj hl)
    rw [← Multiset.coe_nodup, hactives]
    exact (s.subscribers event).nodup
  -- the new publication comes behind all others
  · have horder := h.order active
    rw [hold, append_nil] at horder
    rw [hpublished, hcoming]
    refine horder.append ?_
    split
    · exact Sublist.refl _
    · exact nil_sublist _
  · have hdue := h.due active p
    rw [hold, append_nil] at hdue
    have hcalls : (s.publish event actives).calls = s.calls ++ [.publish publication] := rfl
    rw [hcalls, due_snoc, mem_append, ← hdue, hcoming]
    by_cases hp : p = publication
    · subst hp
      simp [hmem, hpub, received, Handle.publish, or_comm]
    · simp [hp, Ne.symm hp, received, Handle.publish]

/-- **`Publish` pushes to the next queue.** -/
theorem Serving.push (h : Serving s) {actives : List κ} {queue : Deque.Traffic ι Publication}
    (hpub : s.publishing = some (publication, active :: actives))
    (hqueue : queue.pushed = s.received active ++ [publication]) :
    Serving { s.setQueue active queue with publishing := some (publication, actives) } := by
  obtain ⟨hfirst, hrest⟩ := nodup_cons.mp (h.nodup _ _ hpub)
  -- what has come and is to come is the same for every active object
  have hsame : ∀ a, received { s.setQueue active queue with
        publishing := some (publication, actives) } a ++
      coming { s.setQueue active queue with publishing := some (publication, actives) } a =
        s.received a ++ s.coming a := by
    intro a
    by_cases ha : a = active
    · subst ha
      simp [received, setQueue, coming, hpub, hfirst, hqueue]
    · simp [received, setQueue, coming, hpub, ha]
  refine ⟨h.subscribed, h.numbered, fun p l hl => ?_, fun a => ?_, fun a p => ?_⟩
  · obtain ⟨-, rfl⟩ := Prod.mk.inj (Option.some.inj hl)
    exact hrest
  · rw [hsame]
    exact h.order a
  · rw [hsame]
    exact h.due a p

/-- `Publish` releases the mutex. -/
theorem Serving.unlock (h : Serving s) (hpub : s.publishing = some (publication, [])) :
    Serving { s with publishing := none } := by
  have hcoming : ∀ a, s.coming a = [] := by
    intro a
    simp [coming, hpub]
  refine ⟨h.subscribed, h.numbered, nofun, fun a => ?_, fun a p => ?_⟩
  · have horder := h.order a
    rw [hcoming] at horder
    exact horder
  · have hdue := h.due a p
    rw [hcoming] at hdue
    exact hdue

/-- What is taken from a queue has been pushed to it. -/
theorem Serving.pop (h : Serving s) {queue : Deque.Traffic ι Publication}
    (hqueue : queue.pushed = s.received active) : Serving (s.setQueue active queue) := by
  have hreceived : ∀ a, (s.setQueue active queue).received a = s.received a := by
    intro a
    by_cases ha : a = active
    · subst ha
      simpa [received, setQueue] using hqueue
    · simp [received, setQueue, ha]
  refine ⟨h.subscribed, h.numbered, h.nodup, fun a => ?_, fun a p => ?_⟩
  · rw [hreceived]
    exact h.order a
  · rw [hreceived]
    exact h.due a p

variable [DecidableEq ι]

/-- **Every step** keeps the subscribers served. -/
theorem Step.serving {l : Label κ ι} (hstep : Step s l s') (h : Serving s) : Serving s' := by
  cases hstep with
  | subscribe active event =>
    refine h.call nofun fun a e => ?_
    refine (mem_subscribers_subscribe s active a event e).trans ?_
    by_cases hae : active = a ∧ event = e
    · simp [hae]
    · simp [HubCall.Concerns, hae]
  | unSubscribe active event =>
    refine h.call nofun fun a e => ?_
    refine (mem_subscribers_unSubscribe s active a event e).trans ?_
    simp [HubCall.Concerns]
  | publish actives hfree hactives => exact h.publish hfree hactives
  | push hpub hqueue =>
    refine h.push hpub ?_
    cases hqueue with
    | pushBack => rfl
  | unlock hpub => exact h.unlock hpub
  | pop hl hqueue =>
    refine h.pop ?_
    cases hqueue with
    | pushBack => exact hl.elim
    | pushFront => exact hl.elim
    | _ => rfl

end Handle

end MToolkit

import MToolkit.MessageQueue.Looper
import MToolkit.MessageQueue.Traversal

/-!
# From the queue to the handlers

The looper with the builders whose messages it runs (`message_queue/looper.cpp`,
`message_queue/builder.h`, and the class `Dispatcher`, which has all its messages run by one
builder): `Message::Run` has the builder of the message call its handlers one after the other, with
the mutex of its list held. The handlers may edit this list, other threads the lists of the other
builders, or this one before and after.

What matters to a handler is which messages it gets. A log of all callbacks shows that it gets each
message at most once, in the order in which the looper has taken them from the queue, and none that
the looper has not taken; and that one which stays registered gets every message of its builder
(`MToolkit.Dispatcher.delivers`).
-/

namespace MToolkit

universe u v

variable {β : Type u} {η : Type}

/-- A message that is being run, with the loop over the handlers of its builder. -/
structure Handling (β : Type u) (η : Type) where
  message : MessageId
  builder : β
  loop : ForEach η

/-- A callback: the handler in this element of the list has been called with the message. -/
structure Callback (β : Type u) (η : Type) where
  message : MessageId
  builder : β
  node : HandlerNode η

/-- The looper, the builders and the messages. -/
structure Dispatcher (β : Type u) (η : Type) where
  looper : Looper
  /-- The builders; that of the message which is being run is as the loop has it. -/
  builders : β → Builder η
  /-- `_builder` of each message. -/
  builderOf : MessageId → β
  handling : Option (Handling β η)
  /-- The messages that have been run, each with its builder. -/
  ran : List (MessageId × β)
  callbacks : List (Callback β η)

namespace Dispatcher

/-- No message has been sent yet, and there are no handlers. -/
def init (builderOf : MessageId → β) : Dispatcher β η where
  looper := .init
  builders _ := .init
  builderOf := builderOf
  handling := none
  ran := []
  callbacks := []

variable [DecidableEq β] [DecidableEq η]

/-- The steps the threads take. -/
inductive Label (β : Type u) (η : Type) where
  /-- A step of the looper, or of a thread that uses it, outside of `Run`. -/
  | looper (l : Looper.Label) : Label β η
  /-- `Message::SetBuilder` -/
  | setBuilder (message : MessageId) (b : β) : Label β η
  /-- A handler is registered or taken out, at a builder that runs no message. -/
  | edit (b : β) (e : Edit η) : Label β η
  /-- `Run` is called, and takes the mutex of the handlers. -/
  | run : Label β η
  /-- A handler of the builder is called, and does these calls to it. -/
  | turn (b : β) (edits : List (Edit η)) : Label β η
  /-- `Run` returns. -/
  | handled : Label β η

/-- The steps, in any interleaving, as long as there is no fault. -/
inductive Step : Dispatcher β η → Label β η → Dispatcher β η → Prop
  | looper {s : Dispatcher β η} {l : Looper.Label} {u : Looper} (hrun : l ≠ .run)
      (hhandled : l ≠ .handled) (h : Looper.Step s.looper l u) :
      Step s (.looper l) { s with looper := u }
  | setBuilder {s : Dispatcher β η} (message : MessageId) (b : β) :
      Step s (.setBuilder message b)
        { s with builderOf := Function.update s.builderOf message b }
  | edit {s : Dispatcher β η} {b : β} (e : Edit η) (h : ∀ r ∈ s.handling, r.builder ≠ b) :
      Step s (.edit b e)
        { s with builders := Function.update s.builders b ((s.builders b).edit e) }
  | run {s : Dispatcher β η} {message : MessageId} {u : Looper}
      (hlooping : s.looper.looping = .run message) (h : Looper.Step s.looper .run u) :
      Step s .run { s with
        looper := u
        handling := some
          { message := message
            builder := s.builderOf message
            loop := .start (s.builders (s.builderOf message)) }
        ran := s.ran ++ [(message, s.builderOf message)] }
  | turn {s : Dispatcher β η} {r : Handling β η} {node : HandlerNode η} {edits : List (Edit η)}
      {t : ForEach η} (h : s.handling = some r) (hiter : r.loop.iter = some node.id)
      (hnode : node ∈ r.loop.builder.nodes) (hturn : r.loop.turn edits = some t) :
      Step s (.turn r.builder edits) { s with
        handling := some { r with loop := t }
        callbacks := s.callbacks ++ [⟨r.message, r.builder, node⟩] }
  | handled {s : Dispatcher β η} {r : Handling β η} {u : Looper} (h : s.handling = some r)
      (hend : r.loop.iter = none) (hlooper : Looper.Step s.looper .handled u) :
      Step s .handled { s with
        looper := u
        builders := Function.update s.builders r.builder r.loop.builder
        handling := none }

/-- The list of a builder as it is now. -/
def builderAt (s : Dispatcher β η) (b : β) : Builder η :=
  match s.handling with
  | some r => if r.builder = b then r.loop.builder else s.builders b
  | none => s.builders b

/-- The messages of a builder that have been run. -/
def ranBy (s : Dispatcher β η) (b : β) : List MessageId :=
  (s.ran.filter fun p => p.2 = b).map Prod.fst

/-- The messages that a handler has been called with. -/
def got (s : Dispatcher β η) (b : β) (node : HandlerNode η) : List MessageId :=
  (s.callbacks.filter fun c => c.builder = b ∧ c.node = node).map Callback.message

/-- The message that is being run, if the handler has still to be called with it. -/
def due (s : Dispatcher β η) (b : β) (node : HandlerNode η) : List MessageId :=
  match s.handling with
  | some r => if r.builder = b ∧ node ∉ r.loop.called then [r.message] else []
  | none => []

/-- The messages that a handler has been called with, and that which is still due. -/
def owed (s : Dispatcher β η) (b : β) (node : HandlerNode η) : List MessageId :=
  s.got b node ++ s.due b node

variable {s u : Dispatcher β η} {l : Label β η} {ls : List (Label β η)} {b : β}
  {node : HandlerNode η}

/-! ### What always holds -/

/-- The looper's thread is where the loop is, and the lists are in order. -/
structure Sound (s : Dispatcher β η) : Prop where
  looping : ∀ r ∈ s.handling, s.looper.looping = .handling r.message
  loop : ∀ r ∈ s.handling, r.loop.Inv
  sorted : ∀ b, (s.builders b).Sorted

omit [DecidableEq β] [DecidableEq η] in
theorem sound_init (builderOf : MessageId → β) : Sound (init builderOf : Dispatcher β η) where
  looping := nofun
  loop := nofun
  sorted _ := Builder.sorted_init

/-- While handlers run, the looper's thread does nothing else. -/
theorem looping_handling {s u : Looper} {l : Looper.Label} {message : MessageId}
    (h : Looper.Step s l u) (hl : l ≠ .handled) (hs : s.looping = .handling message) :
    u.looping = .handling message := by
  cases h with
  | send | enqueue | tick | spurious | exit | store | join => exact hs
  | test hlooping | next hlooping | run hlooping =>
    rw [hs] at hlooping
    cases hlooping
  | handled => exact absurd rfl hl

omit [DecidableEq β] [DecidableEq η] in
/-- Before `Run` no loop is there. -/
theorem Sound.handling_eq_none (h : Sound s) {message : MessageId}
    (hlooping : s.looper.looping = .run message) : s.handling = none := by
  cases hr : s.handling with
  | none => rfl
  | some r =>
    have hhandling := h.looping r hr
    rw [hlooping] at hhandling
    cases hhandling

theorem Step.sound (hstep : Step s l u) (h : Sound s) : Sound u := by
  cases hstep with
  | looper hrun hhandled hlooper =>
    exact ⟨fun r hr => looping_handling hlooper hhandled (h.looping r hr), h.loop, h.sorted⟩
  | setBuilder => exact ⟨h.looping, h.loop, h.sorted⟩
  | @edit b e hb =>
    refine ⟨h.looping, h.loop, ?_⟩
    exact (Function.forall_update_iff _ fun _ => Builder.Sorted).mpr
      ⟨(h.sorted b).edit e, fun b' _ => h.sorted b'⟩
  | @run message u hlooping hlooper =>
    refine ⟨?_, ?_, h.sorted⟩
    · rintro r ⟨⟩
      cases hlooper with
      | run hlooping' =>
        rw [hlooping] at hlooping'
        cases hlooping'
        rfl
    · rintro r ⟨⟩
      exact ForEach.inv_start (h.sorted _)
  | @turn r node edits t hr hiter hnode hturn =>
    refine ⟨?_, ?_, h.sorted⟩
    · rintro r' ⟨⟩
      exact h.looping r hr
    · rintro r' ⟨⟩
      exact (h.loop r hr).turn hturn
  | @handled r u hr hend hlooper =>
    refine ⟨nofun, nofun, ?_⟩
    exact (Function.forall_update_iff _ fun _ => Builder.Sorted).mpr
      ⟨(h.loop r hr).sorted, fun b' _ => h.sorted b'⟩

/-! ### What a handler gets -/

omit [DecidableEq η] in
theorem ranBy_concat (s : Dispatcher β η) (message : MessageId) (b b' : β) :
    ranBy { s with ran := s.ran ++ [(message, b')] } b =
      s.ranBy b ++ if b' = b then [message] else [] := by
  rw [ranBy, ranBy, List.filter_append, List.map_append]
  by_cases hb : b' = b <;> simp [hb]

theorem got_concat (s : Dispatcher β η) (c : Callback β η) (b : β) (node : HandlerNode η) :
    got { s with callbacks := s.callbacks ++ [c] } b node =
      s.got b node ++ if c.builder = b ∧ c.node = node then [c.message] else [] := by
  rw [got, got, List.filter_append, List.map_append]
  by_cases hc : c.builder = b ∧ c.node = node <;> simp [hc]

/-- What a turn does, with the element whose handler it calls. -/
theorem turn_spec {f t : ForEach η} {edits : List (Edit η)} (h : f.Inv)
    (hnode : node ∈ f.builder.nodes) (hiter : f.iter = some node.id)
    (hturn : f.turn edits = some t) : t.builder = edits.foldl Builder.edit f.builder ∧
      t.called = f.called ++ [node] ∧ node ∉ f.called := by
  by_cases hspares : ∀ e ∈ edits, ¬Builder.Erases node.handler e
  · have hinv := h.turn hturn
    rw [ForEach.turn_of_spares h hnode hiter hspares] at hturn
    obtain rfl := Option.some.inj hturn
    exact ⟨rfl, rfl, fun hmem => List.disjoint_of_nodup_append hinv.nodup hmem List.mem_cons_self⟩
  · rw [ForEach.turn_of_erases h hnode hiter hspares] at hturn
    cases hturn

/-- A message of the builder is run, which the handler is owed then; or it is owed what it has been
owed, or less, if it is not there. -/
def Pays (s u : Dispatcher β η) (b : β) (node : HandlerNode η) : Prop :=
  (∃ message, u.ranBy b = s.ranBy b ++ [message] ∧ u.owed b node = s.owed b node ++ [message]) ∨
    (u.ranBy b = s.ranBy b ∧ (u.owed b node).Sublist (s.owed b node) ∧
      (node ∈ (s.builderAt b).nodes → u.owed b node = s.owed b node))

theorem pays_of_eq (hran : u.ranBy b = s.ranBy b) (howed : u.owed b node = s.owed b node) :
    Pays s u b node :=
  .inr ⟨hran, howed ▸ .refl _, fun _ => howed⟩

/-- **What a step does to what a handler gets**: it is owed each message that is run, when it is
run; and a handler that is there when `Run` returns has got it. -/
theorem Step.pays (hstep : Step s l u) (h : Sound s) (b : β) (node : HandlerNode η) :
    Pays s u b node := by
  cases hstep with
  | looper | setBuilder | edit => exact pays_of_eq rfl rfl
  | @run message u hlooping hlooper =>
    have hran := s.ranBy_concat message b (s.builderOf message)
    have hdue : s.due b node = [] := by rw [due, h.handling_eq_none hlooping]
    by_cases hb : s.builderOf message = b
    · refine .inl ⟨message, by rwa [if_pos hb] at hran, ?_⟩
      rw [owed, owed, hdue, List.append_nil]
      exact congrArg (s.got b node ++ ·) (if_pos ⟨hb, List.not_mem_nil⟩)
    · rw [if_neg hb, List.append_nil] at hran
      refine pays_of_eq hran ?_
      rw [owed, owed, hdue, List.append_nil]
      exact (congrArg (s.got b node ++ ·) (if_neg fun h => hb h.1)).trans (List.append_nil _)
  | @turn r n edits t hr hiter hnode hturn =>
    obtain ⟨-, hcalled, hnot⟩ := turn_spec (h.loop r hr) hnode hiter hturn
    have hdue : s.due b node =
        if r.builder = b ∧ node ∉ r.loop.called then [r.message] else [] := by
      rw [due, hr]
    have hdue' : due { s with handling := some { r with loop := t } } b node =
        if r.builder = b ∧ node ∉ r.loop.called ++ [n] then [r.message] else [] := by
      rw [due, ← hcalled]
    have hgot := s.got_concat ⟨r.message, r.builder, n⟩ b node
    refine pays_of_eq rfl ?_
    change got { s with callbacks := s.callbacks ++ [⟨r.message, r.builder, n⟩] } b node ++
      due { s with handling := some { r with loop := t } } b node = s.got b node ++ s.due b node
    rw [hgot, hdue, hdue', List.append_assoc]
    congr 1
    by_cases hn : n = node
    · subst hn
      by_cases hb : r.builder = b <;> simp [hb, hnot]
    · simp [hn, Ne.symm hn]
  | @handled r u hr hend hlooper =>
    have hgot : s.owed b node = s.got b node ++ s.due b node := rfl
    refine .inr ⟨rfl, ?_, fun hmem => ?_⟩
    · change (s.got b node ++ []).Sublist _
      rw [List.append_nil, hgot]
      exact List.sublist_append_left ..
    · have hdue : s.due b node = [] := by
        rw [due, hr]
        rw [builderAt, hr] at hmem
        by_cases hb : r.builder = b
        · have hloop := h.loop r hr
          dsimp only at hmem
          rw [if_pos hb] at hmem
          have hcalled := hloop.called node hmem (by
            rw [ForEach.bound_of_none hend]
            exact hloop.sorted.lt_fresh node hmem)
          exact if_neg fun h => h.2 hcalled
        · exact if_neg fun h => hb h.1
      rw [hgot, hdue]
      rfl

/-! ### Handlers that stay -/

/-- The step does not take the handler out of the builder. -/
def Label.Spares (b : β) (handler : η) : Label β η → Prop
  | .edit b' e => b' = b → ¬Builder.Erases handler e
  | .turn b' edits => b' = b → ∀ e ∈ edits, ¬Builder.Erases handler e
  | _ => True

omit [DecidableEq η] in
theorem builderAt_of_some {r : Handling β η} (h : s.handling = some r) :
    s.builderAt b = if r.builder = b then r.loop.builder else s.builders b := by
  rw [builderAt, h]

omit [DecidableEq η] in
theorem builderAt_of_none (h : s.handling = none) : s.builderAt b = s.builders b := by
  rw [builderAt, h]

omit [DecidableEq η] in
/-- The list of a builder that runs no message. -/
theorem builderAt_of_ne (h : ∀ r ∈ s.handling, r.builder ≠ b) : s.builderAt b = s.builders b := by
  cases hr : s.handling with
  | none => exact builderAt_of_none hr
  | some r => rw [builderAt_of_some hr, if_neg (h r hr)]

omit [DecidableEq η] in
/-- The list of one builder is edited, which runs no message. -/
theorem builderAt_update {b' : β} {c : Builder η} (h : ∀ r ∈ s.handling, r.builder ≠ b') :
    builderAt { s with builders := Function.update s.builders b' c } b =
      if b = b' then c else s.builderAt b := by
  by_cases hb : b = b'
  · subst hb
    rw [if_pos rfl]
    have hat := builderAt_of_ne (s := { s with builders := Function.update s.builders b c }) h
    exact hat.trans (Function.update_self ..)
  · rw [if_neg hb]
    cases hr : s.handling with
    | none =>
      rw [builderAt_of_none hr, builderAt_of_none rfl]
      exact Function.update_of_ne hb ..
    | some r =>
      rw [builderAt_of_some hr, builderAt_of_some rfl]
      by_cases hrb : r.builder = b
      · rw [if_pos hrb, if_pos hrb]
      · rw [if_neg hrb, if_neg hrb]
        exact Function.update_of_ne hb ..

/-- **A handler that is not taken out stays.** -/
theorem Step.mem_builderAt (hstep : Step s l u) (h : Sound s)
    (hnode : node ∈ (s.builderAt b).nodes) (hspares : l.Spares b node.handler) :
    node ∈ (u.builderAt b).nodes := by
  cases hstep with
  | looper | setBuilder => exact hnode
  | @edit b' e hb =>
    rw [builderAt_update hb]
    split_ifs with hbb
    · subst hbb
      rw [builderAt_of_ne hb] at hnode
      exact (Builder.mem_edit e ((h.sorted b).lt_fresh node hnode)).mpr ⟨hnode, hspares rfl⟩
    · exact hnode
  | @run message u hlooping hlooper =>
    rw [builderAt_of_none (h.handling_eq_none hlooping)] at hnode
    rw [builderAt_of_some rfl]
    split_ifs with hb
    · subst hb
      exact hnode
    · exact hnode
  | @turn r n edits t hr hiter hn hturn =>
    obtain ⟨hbuilder, -⟩ := turn_spec (h.loop r hr) hn hiter hturn
    rw [builderAt_of_some hr] at hnode
    rw [builderAt_of_some rfl]
    by_cases hb : r.builder = b
    · rw [if_pos hb] at hnode ⊢
      have hlt := (h.loop r hr).sorted.lt_fresh node hnode
      rw [hbuilder, Builder.mem_foldl edits hlt]
      exact ⟨hnode, hspares hb⟩
    · rwa [if_neg hb] at hnode ⊢
  | @handled r u hr hend hlooper =>
    rw [builderAt_of_some hr] at hnode
    rw [builderAt_of_none rfl]
    by_cases hb : r.builder = b
    · subst hb
      rw [if_pos rfl] at hnode
      change node ∈ (Function.update s.builders r.builder r.loop.builder r.builder).nodes
      rwa [Function.update_self]
    · rw [if_neg hb] at hnode
      change node ∈ (Function.update s.builders r.builder r.loop.builder b).nodes
      rwa [Function.update_of_ne (Ne.symm hb)]

/-- The messages that a looper has run, by its log. -/
def ranLog (s : Looper) : List MessageId :=
  s.log.filterMap fun e => match e with
    | .ran message _ => some message
    | .sent _ _ _ => none

/-- The step of the looper that a step makes. -/
def Label.toLooper : Label β η → List Looper.Label
  | .looper l => [l]
  | .run => [.run]
  | .handled => [.handled]
  | _ => []

/-- **The looper runs as by itself**, and runs the same messages. -/
theorem Step.toLooper (hstep : Step s l u) (hran : s.ran.map Prod.fst = ranLog s.looper) :
    Lts.Run Looper.Step s.looper l.toLooper u.looper ∧ u.ran.map Prod.fst = ranLog u.looper := by
  cases hstep with
  | setBuilder | edit | turn => exact ⟨.nil _, hran⟩
  | @looper l u hrun hhandled hlooper =>
    refine ⟨.single hlooper, hran.trans ?_⟩
    cases hlooper with
    | send => simp [ranLog, Looper.send]
    | run => exact absurd rfl hrun
    | _ => rfl
  | @run message u hlooping hlooper =>
    refine ⟨.single hlooper, ?_⟩
    cases hlooper with
    | run hlooping' =>
      rw [hlooping] at hlooping'
      cases hlooping'
      simp only [List.map_append, hran]
      simp [ranLog]
  | @handled r u hr hend hlooper =>
    refine ⟨.single hlooper, hran.trans ?_⟩
    cases hlooper
    rfl

/-! ### From the queue to the handlers -/

theorem sound_run (hrun : Lts.Run Step s ls u) (h : Sound s) : Sound u :=
  hrun.invariant (fun h hstep => hstep.sound h) h

/-- A handler is owed only what has been run. -/
theorem owed_sublist_ranBy (hrun : Lts.Run Step s ls u) (h : Sound s)
    (hs : (s.owed b node).Sublist (s.ranBy b)) : (u.owed b node).Sublist (u.ranBy b) := by
  have hinv : Sound u ∧ (u.owed b node).Sublist (u.ranBy b) := by
    refine hrun.invariant (I := fun s => Sound s ∧ (s.owed b node).Sublist (s.ranBy b)) ?_ ⟨h, hs⟩
    rintro s l u ⟨h, hs⟩ hstep
    refine ⟨hstep.sound h, ?_⟩
    rcases hstep.pays h b node with ⟨message, hran, howed⟩ | ⟨hran, hsub, -⟩
    · rw [hran, howed]
      exact hs.append_right [message]
    · rw [hran]
      exact hsub.trans hs
  exact hinv.2

/-- A handler that stays is owed all that is run from then on. -/
theorem owed_run (hrun : Lts.Run Step s ls u) (h : Sound s) (hnode : node ∈ (s.builderAt b).nodes)
    (hspares : ∀ l ∈ ls, l.Spares b node.handler) :
    ∃ messages, u.ranBy b = s.ranBy b ++ messages ∧ u.owed b node = s.owed b node ++ messages := by
  induction hrun with
  | nil => exact ⟨[], (List.append_nil _).symm, (List.append_nil _).symm⟩
  | cons hstep _ ih =>
    rw [List.forall_mem_cons] at hspares
    obtain ⟨messages, hran, howed⟩ :=
      ih (hstep.sound h) (hstep.mem_builderAt h hnode hspares.1) hspares.2
    rcases hstep.pays h b node with ⟨message, hran', howed'⟩ | ⟨hran', -, hkept⟩
    · refine ⟨message :: messages, ?_, ?_⟩
      · rw [hran, hran', List.append_assoc, List.singleton_append]
      · rw [howed, howed', List.append_assoc, List.singleton_append]
    · exact ⟨messages, by rw [hran, hran'], by rw [howed, hkept hnode]⟩

theorem reachable_looper (builderOf : MessageId → β)
    (hs : Lts.Run Step (init builderOf : Dispatcher β η) ls s) :
    s.ran.map Prod.fst = ranLog s.looper ∧ s.looper.Reachable := by
  have hsim : ∀ {s : Dispatcher β η} {l : Label β η} {u : Dispatcher β η} {a : Looper},
      a = s.looper ∧ s.ran.map Prod.fst = ranLog s.looper → Step s l u →
        ∃ a', Lts.Run Looper.Step a l.toLooper a' ∧
          a' = u.looper ∧ u.ran.map Prod.fst = ranLog u.looper := by
    rintro s l u a ⟨rfl, hran⟩ hstep
    obtain ⟨hrun, hran'⟩ := hstep.toLooper hran
    exact ⟨u.looper, hrun, rfl, hran'⟩
  obtain ⟨a, hrun, rfl, hran⟩ :=
    hs.simulate (R := fun s a => a = s.looper ∧ s.ran.map Prod.fst = ranLog s.looper) hsim
      ⟨rfl, rfl⟩
  exact ⟨hran, _, hrun⟩

/-- **From the queue to the handlers**: in any interleaving of sends, registrations and callbacks,
as long as there is no fault, a handler gets each message that its builder has run at most once, and
in this order; one that is registered and stays so gets every message of its builder, save that the
message which is being run may still be due. What has been run is what a looper by itself has run,
in a run of its own. -/
theorem delivers (builderOf : MessageId → β) (hs : Lts.Run Step (init builderOf) ls s) :
    (∀ (b : β) (node : HandlerNode η), (s.got b node).Sublist (s.ranBy b)) ∧
      (∀ (b : β) (node : HandlerNode η), node ∈ (s.builderAt b).nodes →
        ∀ (later : List (Label β η)) (u : Dispatcher β η), Lts.Run Step s later u →
          (∀ l ∈ later, l.Spares b node.handler) →
          ∃ messages, u.ranBy b = s.ranBy b ++ messages ∧
            u.got b node ++ u.due b node = s.got b node ++ s.due b node ++ messages) ∧
      s.ran.map Prod.fst = ranLog s.looper ∧ s.looper.Reachable := by
  refine ⟨fun b node => ?_, fun b node hnode later u hlater hspares => ?_,
    reachable_looper builderOf hs⟩
  · have howed : (s.owed b node).Sublist (s.ranBy b) :=
      owed_sublist_ranBy hs (sound_init builderOf) (.refl _)
    exact (List.sublist_append_left _ _).trans howed
  · exact owed_run hlater (sound_run hs (sound_init builderOf)) hnode hspares

/-- One handler, and one message that it gets. -/
theorem delivers_one : ∃ s : Dispatcher Unit ℕ, s.got () ⟨0, 5⟩ = [0] ∧
    (s.got () ⟨0, 5⟩).Sublist (s.ranBy ()) ∧ s.looper.Reachable := by
  have hs : Lts.Run Step (init fun _ => () : Dispatcher Unit ℕ)
      [.edit () (.registerHandler 5), .looper (.send 0 0), .looper (.enqueue 0), .looper .test,
        .looper .next, .run, .turn () [], .handled] _ :=
    .cons (.edit _ nofun) <| .cons (.looper nofun nofun (.send 0 0)) <|
    .cons (.looper nofun nofun (.enqueue 0)) <| .cons (.looper nofun nofun (.test rfl)) <|
    .cons (.looper nofun nofun (.next rfl nofun)) <| .cons (.run rfl (.run rfl)) <|
    .cons (.turn rfl rfl (List.mem_singleton_self (⟨0, 5⟩ : HandlerNode ℕ)) rfl) <|
    .single (.handled rfl rfl (.handled rfl))
  obtain ⟨hsub, -, -, hreach⟩ := delivers _ hs
  exact ⟨_, rfl, hsub () ⟨0, 5⟩, hreach⟩

end Dispatcher

end MToolkit

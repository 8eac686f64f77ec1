import MToolkit.MessageQueue.Priority

/-!
# Sending a message again

The list holds messages by reference, and `Message::Send` sets the due time of a message
whether or not it is in the list. A message that is sent again with another delay, while it
is queued, so leaves its place unsorted, and `Enqueue`, which stops at the first message
due later, may stop there, before messages that are due earlier than the new one.

Take any messages that are sent once each, among others that are sent at will. They stay in
the stable order among themselves exactly if none of them is ever enqueued when another is
due no later and stands behind a message due later than the new one
(`MToolkit.History.run_ordered_iff`), and as long as they do, the queue treats them as if no
other message had been sent (`MToolkit.History.run_alone`).
-/

namespace MToolkit

namespace History

open MessageQueue Lts List

variable {ι : Type} [DecidableEq ι] {h h' : History ι} {l : Label ι} (once : MessageId → Bool)

/-- The messages in question are sent once: their due times are set before they are
enqueued, and they are enqueued once. -/
def SentOnce (h : History ι) : Label ι → Prop
  | .enqueue message => once message → message ∉ h.enqueued
  | .setWhen message _ => once message → message ∉ h.enqueued
  | _ => True

instance (h : History ι) : (l : Label ι) → Decidable (SentOnce once h l)
  | .enqueue message => inferInstanceAs (Decidable (once message → message ∉ h.enqueued))
  | .setWhen message _ => inferInstanceAs (Decidable (once message → message ∉ h.enqueued))
  | .next _ => isTrue trivial
  | .reacquire _ => isTrue trivial
  | .spurious _ => isTrue trivial

/-- If this step enqueues a message in question, none of them stands in the list behind a
message due later than the new one and is itself due no later. -/
def Clear (h : History ι) : Label ι → Prop
  | .enqueue message => once message → h.items.Pairwise fun later m =>
    h.due message < h.due later → once m → h.due message < h.due m
  | _ => True

/-- The messages in question are in the stable order among themselves. -/
def Ordered (h : History ι) : Prop :=
  StableSort h.due (h.items.filter once) (h.pending.filter once)

/-- A step in a run that sends the messages in question once. -/
def OnceStep (h : History ι) (l : Label ι) (h' : History ι) : Prop :=
  Step h l h' ∧ SentOnce once h l

/-- Such a step that leaves them in the stable order. -/
def OrderedStep (h : History ι) (l : Label ι) (h' : History ι) : Prop :=
  OnceStep once h l h' ∧ Ordered once h'

/-- Such a step that enqueues none of them where it would go before one due no later. -/
def ClearStep (h : History ι) (l : Label ι) (h' : History ι) : Prop :=
  OnceStep once h l h' ∧ Clear once h l

variable {once}

omit [DecidableEq ι] in
/-- A message that has not been enqueued is not in the list. -/
theorem Conserved.not_mem (hc : Conserved h) {message : MessageId}
    (hnew : message ∉ h.enqueued) : message ∉ h.items := by
  intro hmem
  have hsum : message ∈ (h.delivered : Multiset MessageId) + h.items :=
    Multiset.mem_add.mpr (.inr hmem)
  rw [← hc] at hsum
  exact hnew hsum

omit [DecidableEq ι] in
/-- What stands before the place where `Enqueue` stops is due no later. -/
theorem due_le_of_mem_take {message m : MessageId}
    (hm : m ∈ h.items.take (h.queue.position message)) : h.due m ≤ h.due message := by
  rw [position_eq] at hm
  simpa using eq_false_of_mem_take_findIdx hm

omit [DecidableEq ι] in
/-- What stands behind that place. -/
theorem forall_mem_drop_iff {message : MessageId} :
    (∀ m ∈ h.items.drop (h.queue.position message), once m → h.due message < h.due m) ↔
      h.items.Pairwise fun later m =>
        h.due message < h.due later → once m → h.due message < h.due m := by
  have hiff := forall_mem_drop_findIdx_iff (l := h.items)
    (p := fun m => h.due message < h.due m) (q := fun m => once m → h.due message < h.due m)
    fun m hm _ => of_decide_eq_true hm
  simpa only [position_eq, decide_eq_true_eq] using hiff

omit [DecidableEq ι] in
/-- The front message leaves the list, and the messages in question stay in order. -/
theorem Ordered.tail (ho : Ordered once h) {message : MessageId} {items : List MessageId}
    (hitems : h.items = message :: items) :
    StableSort h.due (items.filter once) ((h.pending.erase message).filter once) := by
  rw [Ordered, hitems] at ho
  rw [← erase_filter]
  by_cases hm : once message
  · rw [filter_cons_of_pos hm] at ho
    exact ho.tail
  · rw [filter_cons_of_neg hm] at ho
    rwa [erase_of_not_mem fun hmem => hm (mem_filter.mp hmem).2]

/-- A message in question is enqueued. -/
theorem ordered_enqueue_iff (hc : Conserved h) (ho : Ordered once h) {message : MessageId}
    (hm : once message) (hnew : message ∉ h.enqueued) :
    Ordered once (h.follow (.enqueue message) (h.queue.enqueue message)) ↔
      ∀ m ∈ h.items.drop (h.queue.position message), once m → h.due message < h.due m := by
  have hsplit : StableSort h.due ((h.items.take (h.queue.position message)).filter once ++
      (h.items.drop (h.queue.position message)).filter once) (h.pending.filter once) := by
    rw [← filter_append, take_append_drop]
    exact ho
  have hiff := hsplit.splice_iff (x := message)
    (fun m hmem => due_le_of_mem_take (mem_filter.mp hmem).1)
    fun hmem => hc.not_mem hnew (mem_of_mem_drop (mem_filter.mp hmem).1)
  have hforall : (∀ m ∈ (h.items.drop (h.queue.position message)).filter once,
      h.due message < h.due m) ↔
      ∀ m ∈ h.items.drop (h.queue.position message), once m → h.due message < h.due m := by
    simp only [mem_filter, and_imp]
  have hitems : (h.queue.enqueue message).list.items.filter once =
      (h.items.take (h.queue.position message)).filter once ++
        message :: (h.items.drop (h.queue.position message)).filter once :=
    filter_insertIdx_of_pos (h.queue.position_le message) hm
  have hpending : (h.pending ++ [message]).filter once = h.pending.filter once ++ [message] := by
    rw [filter_append, filter_cons_of_pos hm, filter_nil]
  rw [← hforall, ← hiff, ← hitems, ← hpending]
  rfl

/-- **One step** leaves the messages in question in order exactly if it is clear. -/
theorem OnceStep.ordered_iff (hstep : OnceStep once h l h') (hc : Conserved h)
    (ho : Ordered once h) : Ordered once h' ↔ Clear once h l := by
  obtain ⟨hstep, hsent⟩ := hstep
  cases hstep.effect with
  | enqueue message =>
    by_cases hm : once message
    · rw [ordered_enqueue_iff hc ho hm (hsent hm), forall_mem_drop_iff]
      exact ⟨fun hclear _ => hclear, (· hm)⟩
    · refine iff_of_true ?_ fun hm' => absurd hm' hm
      have hitems : (h.queue.enqueue message).list.items.filter once = h.items.filter once :=
        filter_insertIdx_of_neg (h.queue.position_le message) hm
      have hpending : (h.pending ++ [message]).filter once = h.pending.filter once := by
        rw [filter_append, filter_cons_of_neg hm, filter_nil, append_nil]
      rw [Ordered, ← hpending, ← hitems] at ho
      exact ho
  | setWhen message value =>
    refine iff_of_true (ho.congr fun m hmem => ?_) trivial
    have hne : m ≠ message := by
      rintro rfl
      obtain ⟨hmem, hm⟩ := mem_filter.mp hmem
      exact hc.not_mem (hsent hm) hmem
    simp [due, hne]
  | take _ hl hitems => exact iff_of_true (ho.tail hitems) (by cases l <;> trivial)
  | wait _ hl => exact iff_of_true ho (by cases l <;> trivial)

/-- **When messages stay in order.** The messages in question are in the stable order among
themselves throughout a run exactly if all its steps are clear. -/
theorem run_ordered_iff {when : MessageId → UInt64} {ls : List (Label ι)} {u : History ι} :
    Run (OrderedStep once) (init when) ls u ↔ Run (ClearStep once) (init when) ls u := by
  refine Run.iff_of_invariant (I := fun h => Conserved h ∧ Ordered once h) ?_ ?_ ?_
  · exact fun hI => and_congr_right fun hl => hl.ordered_iff hI.1 hI.2
  · exact fun hI hl => ⟨hl.1.1.conserved hI.1, hl.2⟩
  · exact ⟨rfl, StableSort.nil⟩

/-! ### The queue without the other messages -/

variable (once) in
/-- A step that sends none of the other messages. -/
def Concerns : Label ι → Prop
  | .enqueue message => once message
  | .setWhen message _ => once message
  | _ => True

variable (once) in
/-- `v` is what `h` would be if none of the other messages had been sent: nobody would have
to wait for the messages that have been returned. -/
structure Alone (h v : History ι) : Prop where
  items : v.items = h.items.filter once
  when : ∀ m, once m → v.queue.when m = h.queue.when m
  enqueued : v.enqueued = h.enqueued.filter once
  delivered : v.delivered = h.delivered.filter once
  running : ∀ i, v.queue.list.waiter i = .running

variable {v : History ι}

/-- A message in question is enqueued, and goes where it would go without the others. -/
theorem Alone.enqueue (ha : Alone once h v) {message : MessageId} (hm : once message)
    (hclear : ∀ m ∈ h.items.drop (h.queue.position message), once m → h.due message < h.due m) :
    Alone once (h.follow (.enqueue message) (h.queue.enqueue message))
      (v.follow (.enqueue message) (v.queue.enqueue message)) := by
  have hdue : ∀ m, once m → v.due m = h.due m := fun m hm => by rw [due, due, ha.when m hm]
  have hsplit : v.items = (h.items.take (h.queue.position message)).filter once ++
      (h.items.drop (h.queue.position message)).filter once := by
    rw [ha.items, ← filter_append, take_append_drop]
  have hposition : v.queue.position message =
      ((h.items.take (h.queue.position message)).filter once).length := by
    rw [position_eq, hsplit]
    refine findIdx_append_eq_length (fun m hmem => ?_) fun m hmem => ?_
    · obtain ⟨hmem, hmonce⟩ := mem_filter.mp hmem
      simpa [hdue _ hm, hdue _ hmonce] using due_le_of_mem_take hmem
    · obtain ⟨hmem, hmonce⟩ := mem_filter.mp hmem
      simpa [hdue _ hm, hdue _ hmonce] using hclear m hmem hmonce
  refine ⟨?_, ha.when, ?_, ha.delivered, ha.running⟩
  · have hitems : (h.queue.enqueue message).list.items.filter once =
        (h.items.take (h.queue.position message)).filter once ++
          message :: (h.items.drop (h.queue.position message)).filter once :=
      filter_insertIdx_of_pos (h.queue.position_le message) hm
    have hinsert : (v.queue.enqueue message).list.items =
        v.items.take (v.queue.position message) ++
          message :: v.items.drop (v.queue.position message) :=
      insertIdx_eq_take_append (v.queue.position_le message) message
    rw [hposition, hsplit, take_left, drop_left] at hinsert
    exact hinsert.trans hitems.symm
  · change v.enqueued ++ [message] = (h.enqueued ++ [message]).filter once
    rw [filter_append, filter_cons_of_pos hm, filter_nil, ha.enqueued]

/-- The front message is returned, and if it is in question it is in front without the others
as well. -/
theorem Alone.take (ha : Alone once h v) (i : ι) {message : MessageId} {items : List MessageId}
    {waiter : ι → Waiter} (hitems : h.items = message :: items) :
    ∃ ls v', Run Step v ls v' ∧ (∀ l ∈ ls, Concerns once l) ∧
      Alone once (h.deliver ⟨⟨items, waiter⟩, h.queue.when⟩ (some message)) v' := by
  by_cases hm : once message
  · have hfront : v.items = message :: items.filter once := by
      rw [ha.items, hitems, filter_cons_of_pos hm]
    have hnext := MessageQueue.next_of_cons hfront i
    refine ⟨_, _, .single ⟨_, .next (ha.running i), rfl⟩, by simp [Concerns], ?_⟩
    change Alone once _ (v.deliver (v.queue.next i).2 (v.queue.next i).1)
    rw [hnext]
    refine ⟨rfl, ha.when, ha.enqueued, ?_, fun j => ?_⟩
    · simp [deliver, ha.delivered, hm]
    · by_cases hji : j = i
      · subst hji
        simp [deliver]
      · simpa [deliver, hji] using ha.running j
  · refine ⟨[], v, .nil v, by simp, ?_, ha.when, ha.enqueued, ?_, ha.running⟩
    · rw [ha.items, hitems, filter_cons_of_neg hm]
      rfl
    · simp [deliver, ha.delivered, hm]

/-- **Every step of the queue is matched** without the other messages. -/
theorem ClearStep.alone (hstep : ClearStep once h l h') (ha : Alone once h v) :
    ∃ ls v', Run Step v ls v' ∧ (∀ l ∈ ls, Concerns once l) ∧ Alone once h' v' := by
  obtain ⟨⟨hstep, -⟩, hclear⟩ := hstep
  cases hstep.effect with
  | enqueue message =>
    by_cases hm : once message
    -- both queues take the message, at places that correspond
    · exact ⟨_, _, .single ⟨_, .enqueue message, rfl⟩, by simpa [Concerns] using hm,
        ha.enqueue hm (forall_mem_drop_iff.mpr (hclear hm))⟩
    -- the other queue never sees it
    · refine ⟨[], v, .nil v, by simp, ?_, ha.when, ?_, ha.delivered, ha.running⟩
      · rw [ha.items]
        exact (filter_insertIdx_of_neg (h.queue.position_le message) hm).symm
      · change v.enqueued = (h.enqueued ++ [message]).filter once
        rw [filter_append, filter_cons_of_neg hm, filter_nil, append_nil, ha.enqueued]
  | setWhen message value =>
    by_cases hm : once message
    · refine ⟨_, _, .single ⟨_, .setWhen message value, rfl⟩, by simpa [Concerns] using hm,
        ha.items, fun m hmonce => ?_, ha.enqueued, ha.delivered, ha.running⟩
      by_cases hmm : m = message
      · subst hmm
        simp [follow, deliver, returned]
      · simpa [follow, deliver, returned, hmm] using ha.when m hmonce
    · refine ⟨[], v, .nil v, by simp, ha.items, fun m hmonce => ?_, ha.enqueued, ha.delivered,
        ha.running⟩
      have hne : m ≠ message := by
        rintro rfl
        exact hm hmonce
      simpa [hne] using ha.when m hmonce
  | take _ hl hitems hret =>
    obtain ⟨i⟩ : Nonempty ι := by
      cases l with
      | next i => exact ⟨i⟩
      | reacquire i => exact ⟨i⟩
      | spurious i => exact ⟨i⟩
      | enqueue => exact hl.elim
      | setWhen => exact hl.elim
    exact ha.take i hitems
  | wait => exact ⟨[], v, .nil v, by simp, ha.items, ha.when, ha.enqueued, ha.delivered, ha.running⟩

/-- **In a run that keeps the messages in question in order**, `Next` returns them as in a
run in which none of the other messages is sent. -/
theorem run_alone {when : MessageId → UInt64} {ls : List (Label ι)}
    (hrun : Run (ClearStep once) (init when) ls h) :
    ∃ ls' v, Run Step (init when) ls' v ∧ (∀ l ∈ ls', Concerns once l) ∧ Alone once h v := by
  refine hrun.invariant (I := fun h => ∃ ls' v, Run Step (init when) ls' v ∧
    (∀ l ∈ ls', Concerns once l) ∧ Alone once h v) ?_ ?_
  · rintro s l u ⟨ls', v, hv, hconcerns, ha⟩ hstep
    obtain ⟨ms, v', hv', hconcerns', ha'⟩ := hstep.alone ha
    refine ⟨ls' ++ ms, v', hv.append hv', fun l hl => ?_, ha'⟩
    exact (mem_append.mp hl).elim (hconcerns l) (hconcerns' l)
  · exact ⟨[], init when, .nil _, by simp, rfl, fun _ _ => rfl, rfl, rfl, fun _ => rfl⟩

/-- While the messages in question are in order, the one that `Next` returns is, of those in
the list, the first enqueued of those that are due first. -/
theorem Ordered.first (ho : Ordered once h) (hstep : Step h l h') {message : MessageId}
    (hret : h.queue.returned l = some message) (hm : once message) :
    ∃ a b, h.pending.filter once = a ++ message :: b ∧ (∀ m ∈ a, h.due message < h.due m) ∧
      ∀ m ∈ b, h.due message ≤ h.due m := by
  obtain ⟨⟨items, hitems⟩, -⟩ := hstep.of_returned hret
  rw [Ordered, hitems, filter_cons_of_pos hm] at ho
  exact ho.exists_eq_append

/-- **When sending a message again does not disturb the others.** Take any messages, each
sent once, in a run of any number of threads that send messages, these and others, and call
`Next`. They are in the order of their due times, and of their enqueueing where these are
equal, in every state of the run, exactly if, whenever one of them is enqueued, none of
those in the list stands behind a message due later than the new one and is itself due no
later. In such a run `Next` returns them in that order, and they are queued and returned as
in a run in which no other message is sent. -/
theorem resend_iff (once : MessageId → Bool) (when : MessageId → UInt64) (ls : List (Label ι))
    (u : History ι) :
    (Run (OrderedStep once) (init when) ls u ↔ Run (ClearStep once) (init when) ls u) ∧
      (Run (ClearStep once) (init when) ls u →
        (∀ l u' message, Step u l u' → u.queue.returned l = some message → once message →
          ∃ a b, u.pending.filter once = a ++ message :: b ∧
            (∀ m ∈ a, u.due message < u.due m) ∧ ∀ m ∈ b, u.due message ≤ u.due m) ∧
        ∃ ls' v, Run Step (init when) ls' v ∧ (∀ l ∈ ls', Concerns once l) ∧
          Alone once u v) := by
  refine ⟨run_ordered_iff, fun hrun => ⟨?_, run_alone hrun⟩⟩
  have ho : Ordered once u :=
    (run_ordered_iff.mpr hrun).invariant (fun _ hl => hl.2) StableSort.nil
  intro l u' message hstep hret hm
  exact ho.first hstep hret hm

/-- **A message sent again disturbs the others**: message 0 is due first, then 1. When 0 is
sent again it is due last, and when 2 is sent, due after 1, `Enqueue` stops at 0. -/
theorem resend_disturbs :
    ∃ u u' : History (Fin 1),
      Run (OnceStep fun m => m ≠ 0) (init fun _ => 0) [.setWhen 0 5, .enqueue 0, .setWhen 1 7,
        .enqueue 1, .setWhen 0 100, .enqueue 0, .setWhen 2 10, .enqueue 2] u ∧
        u.items = [2, 0, 1, 0] ∧ u.due 1 < u.due 2 ∧ Step u (.next 0) u' ∧
        u'.delivered = [2] ∧ 1 ∈ u'.items :=
  ⟨_, _, .cons ⟨⟨_, .setWhen 0 5, rfl⟩, by decide⟩ (.cons ⟨⟨_, .enqueue 0, rfl⟩, by decide⟩
    (.cons ⟨⟨_, .setWhen 1 7, rfl⟩, by decide⟩ (.cons ⟨⟨_, .enqueue 1, rfl⟩, by decide⟩
      (.cons ⟨⟨_, .setWhen 0 100, rfl⟩, by decide⟩ (.cons ⟨⟨_, .enqueue 0, rfl⟩, by decide⟩
        (.cons ⟨⟨_, .setWhen 2 10, rfl⟩, by decide⟩
          (.single ⟨⟨_, .enqueue 2, rfl⟩, by decide⟩))))))),
    by decide, by decide, ⟨_, .next rfl, rfl⟩, by decide, by decide⟩

end History

end MToolkit

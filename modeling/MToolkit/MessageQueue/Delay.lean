import MToolkit.MessageQueue.Looper
import Mathlib.Tactic

/-!
# Delayed messages

`Message::Send` adds the delay to the clock, `Enqueue` sorts by the sum, and there the
matter ends: `Next` waits until there is a message, not until the message is due, and
`Loop` runs what `Next` returns. So a delayed message is run as soon as it is the first in
the list, and late only if the looper is busy.

What keeps messages from being early is stated as a condition on each step
(`MToolkit.Looper.Punctual`): the message that `Next` takes is due, and a message is sent
again only in ways that do not bring it forward. In runs of such steps no message is early,
and a step that does not meet the condition leaves a message exposed, which is early if the
looper runs it (`MToolkit.Looper.punctual`).
-/

namespace MToolkit

/-- The second event does not come too early for the first: a message sent with a delay
is not run before the delay has passed. -/
def Event.InTime : Event → Event → Prop
  | .sent message delay clock, .ran message' clock' =>
    message = message' → delay ≠ 0 → clock.toNat + delay.toNat ≤ clock'.toNat
  | _, _ => True

namespace Looper

open Lts

variable {s s' s'' : Looper} {message : MessageId}

/-- **No message is early.** -/
def NotEarly (s : Looper) : Prop := s.log.Pairwise Event.InTime

/-- The conditions under which a step does not let a message run early. -/
def Punctual (s : Looper) : Label → Prop
  -- The message in front is due when `Next` takes it.
  | .next => ∀ message, s.queue.list.items.head? = some message →
    s.queue.when message ≤ s.clock
  | .send message when =>
    -- The due time fits in the 64 bits of `_when`,
    when.toNat + s.clock.toNat < 2 ^ 64 ∧
      -- a message not yet due is not sent again to be due earlier,
      (s.queue.when message ≤ s.clock ∨ s.queue.when message ≤ dueTime when s.clock) ∧
      -- and one that `Next` has returned is not delayed before it is run.
      (when ≠ 0 → s.looping ≠ .run message)
  | _ => True

/-- A step that meets the conditions. -/
def PunctualStep (s : Looper) (l : Label) (s' : Looper) : Prop := Step s l s' ∧ Punctual s l

/-- A message is exposed: it was sent with a delay that has not passed, and its due time
comes before that, or it is about to be run. -/
def Exposed (s : Looper) (message : MessageId) : Prop :=
  ∃ delay clock, .sent message delay clock ∈ s.log ∧ delay ≠ 0 ∧
    s.clock.toNat < clock.toNat + delay.toNat ∧
    ((s.queue.when message).toNat < clock.toNat + delay.toNat ∨ s.looping = .run message)

theorem dueTime_toNat {when clock : UInt64} (hwhen : when ≠ 0)
    (hfit : when.toNat + clock.toNat < 2 ^ 64) :
    (dueTime when clock).toNat = when.toNat + clock.toNat := by
  rw [dueTime, if_pos hwhen, UInt64.toNat_add, Nat.mod_eq_of_lt hfit]

theorem dueTime_toNat_le {when clock : UInt64} (hwhen : when ≠ 0) :
    (dueTime when clock).toNat ≤ clock.toNat + when.toNat := by
  rw [dueTime, if_pos hwhen, UInt64.toNat_add, Nat.add_comm clock.toNat]
  exact Nat.mod_le _ _

theorem next_when : s.next.queue.when = s.queue.when := by
  rw [next, MessageQueue.next]

theorem next_looping_eq :
    s.next.looping = .run message ↔ s.queue.list.items.head? = some message := by
  rw [next, ← s.queue.next_fst ()]
  cases (s.queue.next ()).1 <;> simp

/-! ### Punctual steps -/

/-- A step that leaves due times and log alone exposes nothing: time may pass, and the
thread may go on. -/
theorem Exposed.of_go (h : Exposed s' message) (hwhen : s'.queue.when = s.queue.when)
    (hlog : ∀ {delay clock}, .sent message delay clock ∈ s'.log →
      .sent message delay clock ∈ s.log)
    (hclock : s.clock ≤ s'.clock) (hrun : s'.looping = .run message → s.looping = .run message) :
    Exposed s message := by
  obtain ⟨delay, clock, hmem, hdelay, hlt, hor⟩ := h
  rw [hwhen] at hor
  exact ⟨delay, clock, hlog hmem, hdelay, (UInt64.le_iff_toNat_le.mp hclock).trans_lt hlt,
    hor.imp id hrun⟩

/-- **A message is sent punctually.** -/
theorem Exposed.of_send {m : MessageId} {when : UInt64} (h : Exposed (s.send message when) m)
    (hp : Punctual s (.send message when)) : Exposed s m := by
  obtain ⟨hfit, hforward, hrun⟩ := hp
  obtain ⟨delay, clock, hmem, hdelay, hlt, hor⟩ := h
  rcases List.mem_append.mp hmem with hmem | hmem
  · refine ⟨delay, clock, hmem, hdelay, hlt, ?_⟩
    by_cases hm : m = message
    · subst hm
      simp only [UInt64.le_iff_toNat_le] at hforward
      simp only [Looper.send, Function.update_self] at hlt hor
      refine hor.imp (fun hlt' => ?_) id
      omega
    · simpa [Looper.send, hm] using hor
  · obtain ⟨rfl, rfl, rfl⟩ : m = message ∧ delay = when ∧ clock = s.clock := by
      simpa using hmem
    have htoNat := dueTime_toNat hdelay hfit
    simp only [Looper.send, Function.update_self, htoNat] at hor
    exact absurd (hor.resolve_left (by omega)) (hrun hdelay)

/-- **`Next` takes a message that is due.** -/
theorem Exposed.of_next (h : Exposed s.next message) (hp : Punctual s .next) :
    Exposed s message := by
  obtain ⟨delay, clock, hmem, hdelay, hlt, hor⟩ := h
  refine ⟨delay, clock, hmem, hdelay, hlt, .inl ?_⟩
  rw [next_when] at hor
  rcases hor with hor | hor
  · exact hor
  · exact (UInt64.le_iff_toNat_le.mp (hp message (next_looping_eq.mp hor))).trans_lt hlt

/-- **A punctual step exposes no message.** -/
theorem Step.not_exposed {l : Label} (hstep : Step s l s') (hp : Punctual s l)
    (h : ¬s.Exposed message) : ¬s'.Exposed message := by
  intro h'
  refine h ?_
  cases hstep with
  | send => exact h'.of_send hp
  | next => exact h'.of_next hp
  | tick hclock => exact h'.of_go rfl id hclock id
  | test =>
    refine h'.of_go rfl id (UInt64.le_refl _) fun hm => ?_
    rw [Looper.test] at hm
    by_cases hrunning : s.running <;> simp [hrunning] at hm
  | run => exact h'.of_go rfl (by simp) (UInt64.le_refl _) nofun
  | handled => exact h'.of_go rfl id (UInt64.le_refl _) nofun
  | _ => exact h'.of_go rfl id (UInt64.le_refl _) id

/-- **Running a message** that is not exposed is not early. -/
theorem NotEarly.run (h : s.NotEarly) (hs : ¬s.Exposed message) (hrun : s.looping = .run message) :
    NotEarly { s with looping := .handling message, log := s.log ++ [.ran message s.clock] } := by
  refine List.pairwise_append.mpr ⟨h, List.pairwise_singleton _ _, ?_⟩
  rintro (⟨m, delay, clock⟩ | ⟨m, clock⟩) ha _ hb
  · rw [List.mem_singleton.mp hb]
    rintro rfl hdelay
    by_contra hlt
    exact hs ⟨delay, clock, ha, hdelay, Nat.lt_of_not_le hlt, .inr hrun⟩
  · rw [List.mem_singleton.mp hb]
    trivial

/-- Sending a message makes none early. -/
theorem NotEarly.send (h : s.NotEarly) (message : MessageId) (when : UInt64) :
    NotEarly (s.send message when) := by
  refine List.pairwise_append.mpr ⟨h, List.pairwise_singleton _ _, ?_⟩
  rintro (⟨m, delay, clock⟩ | ⟨m, clock⟩) _ _ hb
  · rw [List.mem_singleton.mp hb]
    trivial
  · rw [List.mem_singleton.mp hb]
    trivial

theorem Step.notEarly {l : Label} (hstep : Step s l s') (hs : ∀ message, ¬s.Exposed message)
    (h : s.NotEarly) : s'.NotEarly := by
  cases hstep with
  | send message when => exact h.send message when
  | run hrun => exact h.run (hs _) hrun
  | _ => exact h

/-! ### Other steps -/

/-- A due time has been asked for. -/
def Asked (s : Looper) : Prop :=
  ∀ message, s.queue.when message ≠ 0 → ∃ delay clock, .sent message delay clock ∈ s.log ∧
    delay ≠ 0 ∧ (s.queue.when message).toNat ≤ clock.toNat + delay.toNat

theorem Asked.mono (h : Asked s) (hwhen : s'.queue.when = s.queue.when)
    (hlog : s.log ⊆ s'.log) : Asked s' := by
  intro m hm
  rw [hwhen] at hm ⊢
  obtain ⟨delay, clock, hmem, hdelay, hle⟩ := h m hm
  exact ⟨delay, clock, hlog hmem, hdelay, hle⟩

theorem Step.asked {l : Label} (hstep : Step s l s') (h : Asked s) : Asked s' := by
  cases hstep with
  | send message when =>
    intro m hm
    by_cases hmm : m = message
    · subst hmm
      simp only [Looper.send, Function.update_self] at hm ⊢
      have hwhen : when ≠ 0 := fun hzero => hm (by simp [dueTime, hzero])
      exact ⟨when, s.clock, by simp, hwhen, dueTime_toNat_le hwhen⟩
    · simp only [Looper.send, Function.update_of_ne hmm] at hm ⊢
      obtain ⟨delay, clock, hmem, hdelay, hle⟩ := h m hm
      exact ⟨delay, clock, List.mem_append_left _ hmem, hdelay, hle⟩
  | run => exact h.mono rfl (List.subset_append_left _ _)
  | next => exact h.mono next_when (List.Subset.refl _)
  | _ => exact h.mono rfl (List.Subset.refl _)

theorem Reachable.asked (hs : s.Reachable) : Asked s := by
  obtain ⟨ls, hrun⟩ := hs
  exact hrun.invariant (fun h hstep => hstep.asked h) (fun _ hm => absurd rfl hm)

/-- A message whose due time is still to come was sent with a delay that has not passed. -/
theorem Asked.exists_sent (h : Asked s) (hlt : s.clock < s.queue.when message) :
    ∃ delay clock, .sent message delay clock ∈ s.log ∧ delay ≠ 0 ∧
      (s.queue.when message).toNat ≤ clock.toNat + delay.toNat := by
  refine h message ?_
  rintro hzero
  rw [hzero, UInt64.lt_iff_toNat_lt] at hlt
  exact Nat.not_lt_zero _ hlt

/-- **A message is not sent punctually.** -/
theorem Asked.exposed_send (h : Asked s) {when : UInt64}
    (hp : ¬Punctual s (.send message when)) : Exposed (s.send message when) message := by
  have hmem : .sent message when s.clock ∈ (s.send message when).log := by simp [Looper.send]
  have hwhen : (s.send message when).queue.when message = dueTime when s.clock := by
    simp [Looper.send]
  by_cases hfit : when.toNat + s.clock.toNat < 2 ^ 64
  · by_cases hrun : when ≠ 0 → s.looping ≠ .run message
    · -- The message was not yet due, and is now due earlier.
      obtain ⟨hle, hle'⟩ := not_or.mp fun hforward => hp ⟨hfit, hforward, hrun⟩
      obtain ⟨delay, clock, hmem, hdelay, hdue⟩ := h.exists_sent (UInt64.not_le.mp hle)
      rw [UInt64.le_iff_toNat_le, not_le] at hle hle'
      refine ⟨delay, clock, List.mem_append_left _ hmem, hdelay, hle.trans_le hdue, .inl ?_⟩
      rw [hwhen]
      exact hle'.trans_le hdue
    · obtain ⟨hdelay, hrun⟩ := Classical.not_imp.mp hrun
      have hpos : 0 < when.toNat := Nat.pos_of_ne_zero fun h => hdelay (UInt64.toNat_inj.mp h)
      exact ⟨when, s.clock, hmem, hdelay, Nat.lt_add_of_pos_right hpos, .inr (not_not.mp hrun)⟩
  · -- The due time has wrapped around.
    have hlt : s.clock.toNat < 2 ^ 64 := s.clock.toNat_lt
    have hlt' : (dueTime when s.clock).toNat < 2 ^ 64 := UInt64.toNat_lt _
    have hdelay : when ≠ 0 := by
      rintro rfl
      exact hfit (by simpa using hlt)
    refine ⟨when, s.clock, hmem, hdelay, ?_, .inl ?_⟩
    · change s.clock.toNat < _
      omega
    · rw [hwhen]
      omega

/-- **A step that is not punctual exposes a message.** -/
theorem Step.exposed {l : Label} (hstep : Step s l s') (h : Asked s) (hp : ¬Punctual s l) :
    ∃ message, s'.Exposed message := by
  cases hstep with
  | next =>
    obtain ⟨message, hmessage⟩ := not_forall.mp hp
    obtain ⟨hfront, hle⟩ := Classical.not_imp.mp hmessage
    have hlt : s.clock < s.queue.when message := UInt64.not_le.mp hle
    obtain ⟨delay, clock, hmem, hdelay, hdue⟩ := h.exists_sent hlt
    exact ⟨message, delay, clock, hmem, hdelay, (UInt64.lt_iff_toNat_lt.mp hlt).trans_le hdue,
      .inr (next_looping_eq.mpr hfront)⟩
  | send message when => exact ⟨message, h.exposed_send hp⟩
  | _ => exact absurd trivial hp

/-- **An exposed message is early** if it is run. -/
theorem Exposed.early (h : s.Exposed message) (hrun : s.looping = .run message)
    (hstep : Step s .run s') : ¬s'.NotEarly := by
  obtain ⟨delay, clock, hmem, hdelay, hlt, -⟩ := h
  intro hnot
  cases hstep with
  | @run m hm =>
    obtain rfl : message = m := Looping.run.inj (hrun.symm.trans hm)
    have hintime := (List.pairwise_append.mp hnot).2.2 _ hmem _ (List.mem_singleton_self _)
    exact absurd (hintime rfl hdelay) (Nat.not_le.mpr hlt)

/-- **When delayed messages are not early.** In a run in which `Next` only takes messages
that are due, and messages are sent again only as the conditions say, no message sent with
a delay is run before the delay has passed. Any other step leads to a state in which a
message is exposed, and a message that is exposed when it is run is early. -/
theorem punctual (ls : List Label) (u : Looper) :
    (Run PunctualStep init ls u → u.NotEarly) ∧
      (u.Reachable → ∀ l u', Step u l u' → ¬Punctual u l → ∃ message, u'.Exposed message) ∧
      ∀ message u', u.Exposed message → u.looping = .run message → Step u .run u' →
        ¬u'.NotEarly := by
  refine ⟨fun hrun => ?_, fun hu l u' hstep hp => hstep.exposed hu.asked hp,
    fun message u' hexposed hlooping hstep => hexposed.early hlooping hstep⟩
  have hu : (∀ message, ¬u.Exposed message) ∧ u.NotEarly := by
    refine hrun.invariant (I := fun s => (∀ message, ¬s.Exposed message) ∧ s.NotEarly) ?_ ?_
    · rintro s l s' ⟨hs, hearly⟩ ⟨hstep, hp⟩
      exact ⟨fun message => hstep.not_exposed hp (hs message), hstep.notEarly hs hearly⟩
    · exact ⟨fun _ ⟨_, _, hmem, _⟩ => absurd hmem List.not_mem_nil, .nil⟩
  exact hu.2

/-- **An early message**: it is sent with a delay to an idle looper. -/
theorem delayed_runs_at_once :
    ∃ u : Looper, Run Step init [.send 0 5, .enqueue 0, .test, .next, .run] u ∧
      u.log = [.sent 0 5 0, .ran 0 0] ∧ ¬u.NotEarly := by
  refine ⟨_, .cons (.send 0 5) (.cons (.enqueue 0) (.cons (.test rfl) (.cons (.next rfl nofun)
    (.single (.run rfl))))), rfl, ?_⟩
  intro hnot
  have hintime : Event.InTime (.sent 0 5 0) (.ran 0 0) :=
    List.rel_of_pairwise_cons hnot (List.mem_singleton_self _)
  exact absurd (hintime rfl (by decide)) (by decide)

end Looper

end MToolkit

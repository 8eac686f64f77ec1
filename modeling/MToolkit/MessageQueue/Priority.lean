import MToolkit.Library.Census
import MToolkit.Library.StableSort
import MToolkit.MessageQueue.Queue
import Mathlib.Tactic

/-!
# The message queue as a stable priority queue

`Enqueue` walks past the messages that are due no later than the new one and inserts it
there, and `Next` takes the first message. As long as a message keeps its due time while it
is queued, the list is in the stable order of the messages that have been enqueued and not
yet returned (`List.StableSort`), and so `Next` returns the first enqueued of those that
are due first (`MToolkit.History.stable_priority_queue`).

What has been enqueued and returned is not in the state of a queue; a history keeps it.
-/

namespace MToolkit

/-- A step of a thread in `Next`. -/
def MessageQueue.Label.InNext {ι : Type} : MessageQueue.Label ι → Prop
  | .next _ => True
  | .reacquire _ => True
  | .spurious _ => True
  | _ => False

/-- What a step of a thread makes `Next` return. -/
def MessageQueue.returned {ι : Type} [DecidableEq ι] (s : MessageQueue ι) :
    MessageQueue.Label ι → Option MessageId
  | .next i => (s.next i).1
  | .reacquire i => (s.next i).1
  | _ => none

/-- A message queue with its history. -/
structure History (ι : Type) where
  queue : MessageQueue ι
  /-- The messages enqueued, in order. -/
  enqueued : List MessageId
  /-- The messages that `Next` has returned, in order. -/
  delivered : List MessageId
  /-- The messages enqueued and not yet returned, in the order they were enqueued in. -/
  pending : List MessageId

namespace History

open MessageQueue Lts List Census

variable {ι : Type}

/-- The messages in the list. -/
def items (h : History ι) : List MessageId := h.queue.list.items

/-- The due times as numbers. -/
def due (h : History ι) (message : MessageId) : ℕ := (h.queue.when message).toNat

/-- An empty queue that has no history. -/
def init (when : MessageId → UInt64) : History ι where
  queue := .init when
  enqueued := []
  delivered := []
  pending := []

/-- A call of `Next` returns a message, or does not yet. -/
def deliver (h : History ι) (queue : MessageQueue ι) : Option MessageId → History ι
  | none => { h with queue := queue }
  | some message =>
    { queue := queue
      enqueued := h.enqueued
      delivered := h.delivered ++ [message]
      pending := h.pending.erase message }

variable [DecidableEq ι]

/-- A step of a thread leads to `queue`. -/
def follow (h : History ι) (l : Label ι) (queue : MessageQueue ι) : History ι :=
  match l with
  | .enqueue message =>
    { queue := queue
      enqueued := h.enqueued ++ [message]
      delivered := h.delivered
      pending := h.pending ++ [message] }
  | l => h.deliver queue (h.queue.returned l)

/-- The steps of the threads, with their history. -/
def Step (h : History ι) (l : Label ι) (h' : History ι) : Prop :=
  ∃ queue, MessageQueue.Step h.queue l queue ∧ h' = h.follow l queue

/-- A message in the list keeps its due time. -/
def Steady (h : History ι) : Label ι → Prop
  | .setWhen message value => message ∈ h.items → value = h.queue.when message
  | _ => True

/-- A step that changes no due time of a message in the list. -/
def SteadyStep (h : History ι) (l : Label ι) (h' : History ι) : Prop :=
  Step h l h' ∧ Steady h l

variable {h h' : History ι} {l : Label ι}

/-- Every run of a queue has a history. -/
theorem exists_history {s q : MessageQueue ι} {ls : List (Label ι)}
    (hrun : Run MessageQueue.Step s ls q) :
    ∀ h : History ι, h.queue = s → ∃ h', Run Step h ls h' ∧ h'.queue = q := by
  induction hrun with
  | nil => exact fun h hs => ⟨h, .nil h, hs⟩
  | @cons s m u l ls hstep _ ih =>
    rintro h rfl
    have hfollow : (h.follow l m).queue = m := by
      cases l <;> simp only [follow, deliver] <;> split <;> rfl
    obtain ⟨h', hrun', hq⟩ := ih (h.follow l m) hfollow
    exact ⟨h', .cons ⟨m, hstep, rfl⟩ hrun', hq⟩

/-- **What a step does to the messages**: one is enqueued, a due time is set, or a thread in
`Next` takes one or none. -/
inductive Effect (h : History ι) : Label ι → History ι → Prop
  | enqueue (message : MessageId) :
      Effect h (.enqueue message) (h.follow (.enqueue message) (h.queue.enqueue message))
  | setWhen (message : MessageId) (value : UInt64) :
      Effect h (.setWhen message value)
        { h with queue := { h.queue with when := Function.update h.queue.when message value } }
  | take {l : Label ι} {message : MessageId} {items : List MessageId} (waiter : ι → Waiter) :
      l.InNext → h.items = message :: items → h.queue.returned l = some message →
      Effect h l (h.deliver ⟨⟨items, waiter⟩, h.queue.when⟩ (some message))
  | wait {l : Label ι} (waiter : ι → Waiter) : l.InNext → h.queue.returned l = none →
      Effect h l { h with queue := { h.queue with list := ⟨h.items, waiter⟩ } }

/-- A critical section in `Next`. -/
theorem effect_next (hl : l.InNext) {i : ι} (hret : h.queue.returned l = (h.queue.next i).1) :
    Effect h l (h.deliver (h.queue.next i).2 (h.queue.next i).1) := by
  rcases hitems : h.items with _ | ⟨message, items⟩
  · rw [MessageQueue.next_of_nil hitems] at hret ⊢
    exact .wait _ hl hret
  · rw [MessageQueue.next_of_cons hitems] at hret ⊢
    exact .take _ hl hitems hret

theorem Step.effect (hstep : Step h l h') : Effect h l h' := by
  obtain ⟨queue, hqueue, rfl⟩ := hstep
  cases hqueue with
  | enqueue message => exact .enqueue message
  | @next i => exact effect_next (l := .next i) trivial rfl
  | @reacquire i => exact effect_next (l := .reacquire i) trivial rfl
  | spurious => exact .wait _ trivial rfl
  | setWhen message value => exact .setWhen message value

/-- A message that is returned was in front. -/
theorem Step.of_returned (hstep : Step h l h') {message : MessageId}
    (hret : h.queue.returned l = some message) :
    (∃ items, h.items = message :: items) ∧ h'.delivered = h.delivered ++ [message] := by
  cases hstep.effect with
  | enqueue => exact absurd hret nofun
  | setWhen => exact absurd hret nofun
  | take _ _ hitems hret' =>
    obtain rfl := Option.some.inj (hret'.symm.trans hret)
    exact ⟨⟨_, hitems⟩, rfl⟩
  | wait _ _ hret' => exact absurd (hret'.symm.trans hret) nofun

/-- **No message is lost or returned twice**, whatever happens to the due times. -/
def Conserved (h : History ι) : Prop :=
  (h.enqueued : Multiset MessageId) = h.delivered + h.items

theorem Step.conserved (hstep : Step h l h') (hc : Conserved h) : Conserved h' := by
  cases hstep.effect with
  | enqueue message =>
    have hperm : (h.queue.enqueue message).list.items.Perm (message :: h.items) :=
      perm_insertIdx _ _ (h.queue.position_le message)
    calc ((h.enqueued ++ [message] : List MessageId) : Multiset MessageId)
        = h.delivered + (message :: h.items : List MessageId) := by
          rw [coe_snoc, hc, ← Multiset.cons_coe, Multiset.add_cons]
      _ = h.delivered + (h.queue.enqueue message).list.items := by
          rw [Multiset.coe_eq_coe.mpr hperm]
  | setWhen => exact hc
  | @take _ message items _ _ hitems =>
    calc (h.enqueued : Multiset MessageId)
        = h.delivered + (message :: items : List MessageId) := by rw [hc, hitems]
      _ = (h.delivered ++ [message] : List MessageId) + items := by
          rw [coe_snoc, ← Multiset.cons_coe, Multiset.add_cons, Multiset.cons_add]
  | wait => exact hc

omit [DecidableEq ι] in
/-- The place at which `Enqueue` stops, with due times as numbers. -/
theorem position_eq (message : MessageId) :
    h.queue.position message = h.items.findIdx fun m => h.due message < h.due m := by
  refine congrArg h.items.findIdx (funext fun m => ?_)
  exact decide_eq_decide.mpr UInt64.lt_iff_toNat_lt

/-- The list is in the stable order of the messages that are pending. -/
def Sorted (h : History ι) : Prop := StableSort h.due h.items h.pending

/-- **A steady step** keeps the list sorted. -/
theorem SteadyStep.sorted (hstep : SteadyStep h l h') (hs : Sorted h) : Sorted h' := by
  obtain ⟨hstep, hsteady⟩ := hstep
  cases hstep.effect with
  | enqueue message =>
    have hinsert := hs.insert message
    rw [← position_eq] at hinsert
    exact hinsert
  | setWhen message value =>
    refine hs.congr fun m hm => ?_
    by_cases hmm : m = message
    · subst hmm
      simp [due, hsteady hm]
    · simp [due, hmm]
  | take _ _ hitems =>
    rw [Sorted, hitems] at hs
    exact hs.tail
  | wait => exact hs

/-- **A thread in `Next` that finds a message** takes it: one that calls `Next`, and one that was
notified, when it has the mutex again. -/
theorem exists_step_of_cons {message : MessageId} {items : List MessageId}
    (hitems : h.items = message :: items) {i : ι} :
    (h.queue.list.waiter i = .running →
      ∃ h', Step h (.next i) h' ∧ h.queue.returned (.next i) = some message) ∧
      (h.queue.list.waiter i = .notified →
        ∃ h', Step h (.reacquire i) h' ∧ h.queue.returned (.reacquire i) = some message) := by
  have hret : (h.queue.next i).1 = some message := by
    rw [MessageQueue.next_fst]
    exact congrArg List.head? hitems
  exact ⟨fun hi => ⟨_, ⟨_, .next hi, rfl⟩, hret⟩, fun hi => ⟨_, ⟨_, .reacquire hi, rfl⟩, hret⟩⟩

/-- **A stable priority queue.** In a run of any number of threads that call `Enqueue` and
`Next`, in which messages keep their due times while they are queued: the list is in the
order of the due times, and of the enqueueing where these are equal; what has been enqueued
has been returned or is in the list, and once only; the message a `Next` returns is, of
those in the list, the first enqueued of those that are due first; and while there is one, a
thread that calls `Next`, or was notified in it, can take a step that returns one. -/
theorem stable_priority_queue {when : MessageId → UInt64} {ls : List (Label ι)}
    (hrun : Run SteadyStep (init when) ls h) :
    StableSort h.due h.items h.pending ∧
      (h.enqueued : Multiset MessageId) = h.delivered + h.items ∧
      (∀ l h' message, Step h l h' → h.queue.returned l = some message →
        h'.delivered = h.delivered ++ [message] ∧
          ∃ a b, h.pending = a ++ message :: b ∧ (∀ m ∈ a, h.due message < h.due m) ∧
            ∀ m ∈ b, h.due message ≤ h.due m) ∧
      (h.items ≠ [] → ∀ i, ∃ message,
        (h.queue.list.waiter i = .running →
          ∃ h', Step h (.next i) h' ∧ h.queue.returned (.next i) = some message) ∧
        (h.queue.list.waiter i = .notified →
          ∃ h', Step h (.reacquire i) h' ∧ h.queue.returned (.reacquire i) = some message)) := by
  have hs : Sorted h := hrun.invariant (fun hs hstep => hstep.sorted hs) StableSort.nil
  have hc : Conserved h := hrun.invariant (fun hc hstep => hstep.1.conserved hc) rfl
  refine ⟨hs, hc, fun l h' message hstep hret => ?_, fun hne i => ?_⟩
  · obtain ⟨⟨items, hitems⟩, hdelivered⟩ := hstep.of_returned hret
    rw [Sorted, hitems] at hs
    exact ⟨hdelivered, hs.exists_eq_append⟩
  · obtain ⟨message, items, hitems⟩ := List.exists_cons_of_ne_nil hne
    exact ⟨message, exists_step_of_cons hitems⟩

/-- Three messages, of which the two enqueued last are due first, and at the same time: `Next`
returns them in the order in which they were enqueued, and then the other one. -/
theorem stable_priority_queue_ties :
    ∃ h : History (Fin 1),
      Run SteadyStep (init fun m => if m = 0 then 5 else 3)
        [.enqueue 0, .enqueue 1, .enqueue 2, .next 0, .next 0] h ∧
        h.delivered = [1, 2] ∧ h.items = [0] ∧ StableSort h.due h.items h.pending ∧
        (h.enqueued : Multiset MessageId) = h.delivered + h.items ∧
        ∃ h', Step h (.next 0) h' ∧ h'.delivered = [1, 2, 0] := by
  have hrun : ∃ h : History (Fin 1),
      Run SteadyStep (init fun m => if m = 0 then 5 else 3)
        [.enqueue 0, .enqueue 1, .enqueue 2, .next 0, .next 0] h ∧
        h.delivered = [1, 2] ∧ h.items = [0] ∧ h.queue.list.waiter 0 = .running :=
    ⟨_, .cons ⟨⟨_, .enqueue 0, rfl⟩, trivial⟩ (.cons ⟨⟨_, .enqueue 1, rfl⟩, trivial⟩
      (.cons ⟨⟨_, .enqueue 2, rfl⟩, trivial⟩ (.cons ⟨⟨_, .next rfl, rfl⟩, trivial⟩
        (.single ⟨⟨_, .next rfl, rfl⟩, trivial⟩)))), by decide, by decide, by decide⟩
  obtain ⟨h, hrun, hdelivered, hitems, hwaiter⟩ := hrun
  obtain ⟨hsort, hconserved, hreturns, hfinds⟩ := stable_priority_queue hrun
  obtain ⟨message, hnext, -⟩ := hfinds (by rw [hitems]; exact List.cons_ne_nil _ _) 0
  obtain ⟨h', hstep, hret⟩ := hnext hwaiter
  obtain ⟨⟨items, hfront⟩, -⟩ := hstep.of_returned hret
  obtain ⟨rfl, -⟩ := List.cons.inj (hitems.symm.trans hfront)
  refine ⟨h, hrun, hdelivered, hitems, hsort, hconserved, h', hstep, ?_⟩
  rw [(hreturns _ _ _ hstep hret).1, hdelivered]
  rfl

end History

end MToolkit

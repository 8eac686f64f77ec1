import MToolkit.Actor.Deque

/-!
# The event hub

The class `Handle` (`actor/handle.cpp`): which active objects are subscribed to which
signals, and the publication of events to them. All three calls hold the mutex of the
`Handle` from beginning to end. `Publish` does so while it goes through the subscribers and
pushes the event to the queue of one after the other; meanwhile the threads of the active
objects go on taking events from the queues.

A publication is a call of `Publish`, and is what is pushed: the queues hold pointers to
events, and an event may be published more than once.
-/

namespace MToolkit

/-- `Signal` -/
abbrev Signal := UInt32

/-- A call of `Publish`: its number, and the signal of its event. -/
structure Publication where
  number : ℕ
  /-- `_signal` -/
  signal : Signal
  deriving DecidableEq

/-- A call of one of the three, as far as it takes the mutex. -/
inductive HubCall (κ : Type) where
  | subscribe (active : κ) (event : Signal) : HubCall κ
  | unSubscribe (active : κ) (event : Signal) : HubCall κ
  | publish (publication : Publication) : HubCall κ
  deriving DecidableEq

/-- The state of a `Handle`, and of the queues of the active objects `κ`, each used by
threads `ι`. -/
structure Handle (κ ι : Type) where
  /-- `_subscribe_map` -/
  subscribeMap : Signal → Option (Finset κ)
  /-- The publication that a `Publish` is pushing, and those that it has still to push it
  to. -/
  publishing : Option (Publication × List κ)
  /-- `_queue` of each active object. -/
  queue : κ → Deque.Traffic ι Publication
  /-- The calls that have taken the mutex, in order. -/
  calls : List (HubCall κ)

namespace Handle

variable {κ ι : Type}

/-- Nobody is subscribed to anything. -/
def init : Handle κ ι where
  subscribeMap := fun _ => none
  publishing := none
  queue := fun _ => .init
  calls := []

/-- The mutex is free. -/
def Unlocked (s : Handle κ ι) : Prop := s.publishing = none

instance (s : Handle κ ι) : Decidable s.Unlocked :=
  decidable_of_iff (s.publishing.isNone = true) Option.isNone_iff_eq_none

/-- The active objects subscribed to a signal. -/
def subscribers (s : Handle κ ι) (event : Signal) : Finset κ := (s.subscribeMap event).getD ∅

/-- The publications among the calls. -/
def published (calls : List (HubCall κ)) : List Publication :=
  calls.filterMap fun
    | .publish publication => some publication
    | _ => none

/-- What has ever been pushed to the queue of an active object. -/
def received (s : Handle κ ι) (active : κ) : List Publication := (s.queue active).pushed

/-- `Publish` takes the mutex and finds the subscribers, in the order `actives`. -/
def publish (s : Handle κ ι) (event : Signal) (actives : List κ) : Handle κ ι :=
  let publication := ⟨(published s.calls).length, event⟩
  { s with
    publishing := some (publication, actives)
    calls := s.calls ++ [.publish publication] }

variable [DecidableEq κ]

/-- `Handle::Subscribe`. -/
def subscribe (s : Handle κ ι) (active : κ) (event : Signal) : Handle κ ι :=
  let subscribeMap :=
    if s.subscribeMap event = none then Function.update s.subscribeMap event (some ∅)
    else s.subscribeMap
  { s with
    subscribeMap := Function.update subscribeMap event
      ((subscribeMap event).map (insert active))
    calls := s.calls ++ [.subscribe active event] }

/-- `Handle::UnSubscribe`. -/
def unSubscribe (s : Handle κ ι) (active : κ) (event : Signal) : Handle κ ι :=
  { s with
    subscribeMap := Function.update s.subscribeMap event
      ((s.subscribeMap event).map fun actives => actives.erase active)
    calls := s.calls ++ [.unSubscribe active event] }

/-- The queue of an active object moves on. -/
def setQueue (s : Handle κ ι) (active : κ) (queue : Deque.Traffic ι Publication) : Handle κ ι :=
  { s with queue := Function.update s.queue active queue }

/-- What the threads do. -/
inductive Label (κ ι : Type) where
  | subscribe (active : κ) (event : Signal) : Label κ ι
  | unSubscribe (active : κ) (event : Signal) : Label κ ι
  /-- A `Publish` takes the mutex. -/
  | publish (event : Signal) : Label κ ι
  /-- It pushes to the next queue. -/
  | push : Label κ ι
  /-- It releases the mutex. -/
  | unlock : Label κ ι
  /-- A thread takes a step in `Pop` on the queue of an active object. -/
  | pop (active : κ) (l : Deque.Label ι Publication) : Label κ ι

/-- A step of a thread in `Pop`. -/
def InPop : Deque.Label ι Publication → Prop
  | .pushBack _ => False
  | .pushFront _ => False
  | _ => True

variable [DecidableEq ι]

/-- The steps, in any interleaving, with no push to a queue but those of `Publish`. A
`std::set` of pointers goes through its elements in an order of its own. -/
inductive Step : Handle κ ι → Label κ ι → Handle κ ι → Prop
  | subscribe {s : Handle κ ι} (active : κ) (event : Signal) : s.Unlocked →
      Step s (.subscribe active event) (s.subscribe active event)
  | unSubscribe {s : Handle κ ι} (active : κ) (event : Signal) : s.Unlocked →
      Step s (.unSubscribe active event) (s.unSubscribe active event)
  | publish {s : Handle κ ι} {event : Signal} (actives : List κ) : s.Unlocked →
      (actives : Multiset κ) = (s.subscribers event).val →
      Step s (.publish event) (s.publish event actives)
  | push {s : Handle κ ι} {publication : Publication} {active : κ} {actives : List κ}
      {queue : Deque.Traffic ι Publication} :
      s.publishing = some (publication, active :: actives) →
      Deque.Traffic.Step (s.queue active) (.pushBack publication) queue →
      Step s .push { s.setQueue active queue with publishing := some (publication, actives) }
  | unlock {s : Handle κ ι} {publication : Publication} : s.publishing = some (publication, []) →
      Step s .unlock { s with publishing := none }
  | pop {s : Handle κ ι} {active : κ} {l : Deque.Label ι Publication}
      {queue : Deque.Traffic ι Publication} : InPop l →
      Deque.Traffic.Step (s.queue active) l queue →
      Step s (.pop active l) (s.setQueue active queue)

end Handle

end MToolkit

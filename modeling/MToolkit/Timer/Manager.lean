import MToolkit.Library.Lts
import MToolkit.Library.PartialMap
import MToolkit.Timer.Wheel

/-!
# The timer manager

The class `TimerManager` (`timer/manager.h`, `timer/manager.cpp`), each call taken
as one step: `Start` in its two forms, `Destroy`, `Pause`, `Resume` and the
driver's `Executes`.

Nodes are shared objects: the slots, the three maps and the list that `Executes`
works through all point to them. They live in a heap, `node`, indexed by identity;
what the callbacks of the events observe is the list `log` of the calls made on
them, in order.

`OnTrigger` runs user code, which may call the manager. Its behaviour is a
parameter of `Executes`: a `MToolkit.Timer.Handlers` says, for the state and the
event of an `OnTrigger` call, which calls it makes. An exception that such a call
throws stays in the handler. The other callbacks are taken not to call the
manager.
-/

namespace MToolkit

namespace Timer

open Buckets

/-- A call of the public interface. -/
inductive Call where
  /-- `Start(event, count, interval)` -/
  | start (event : Event) (count : Int64) (interval : ℤ) : Call
  /-- `Start(function, count, interval)` -/
  | startFunction (count : Int64) (interval : ℤ) : Call
  /-- `Destroy(event)` -/
  | destroy (event : Event) : Call
  /-- `Pause(event)` -/
  | pause (event : Event) : Call
  /-- `Resume(event)` -/
  | resume (event : Event) : Call

/-- How a call ends. -/
inductive Outcome where
  | returned (value : Bool) : Outcome
  | threw : Outcome
  deriving DecidableEq

/-- The state of a `TimerManager`, of the nodes it has made and of the callbacks
made so far. -/
structure TimerManager where
  /-- `_tickTime` -/
  tickTime : ℤ
  /-- `_nearList` and `_wheelList` -/
  slots : Slot → List NodeId
  /-- `_pause` -/
  pauseMap : Event → Option NodeId
  /-- `_normal` -/
  normalMap : Event → Option NodeId
  /-- `_manager` -/
  managerMap : Event → Option NodeId
  /-- The nodes, by identity. -/
  node : NodeId → TimerNode
  /-- The identity of the next node to be made. -/
  nextNode : NodeId
  /-- The callbacks made so far, in order. -/
  log : List Callback

/-- The behaviour of `OnTrigger`: the calls it makes on the manager. -/
abbrev Handlers := TimerManager → Event → List Call

/-- Every call the handlers ever make is admissible. -/
def Handlers.All (P : Call → Prop) (h : Handlers) : Prop := ∀ s event, ∀ c ∈ h s event, P c

namespace TimerManager

/-- A manager just constructed. -/
def init : TimerManager where
  tickTime := 0
  slots := fun _ => []
  pauseMap := fun _ => none
  normalMap := fun _ => none
  managerMap := fun _ => none
  node := fun _ => { isValid := false, event := .given 0 }
  nextNode := 0
  log := []

/-! ### Nodes and slots -/

/-- Run a method of node `x`. -/
def perform (s : TimerManager) (x : NodeId) (f : TimerNode → TimerNode × List Callback) :
    TimerManager :=
  { s with node := Function.update s.node x (f (s.node x)).1, log := s.log ++ (f (s.node x)).2 }

/-- `std::make_shared<TimerNode>(…)`; the node made is `s.nextNode`. -/
def makeShared (s : TimerManager) (n : TimerNode) : TimerManager :=
  { s with node := Function.update s.node s.nextNode n, nextNode := s.nextNode + 1 }

/-- The wheel of a manager. -/
def wheel (s : TimerManager) : Wheel NodeId where
  tickTime := s.tickTime
  expire := fun x => (s.node x).expire
  slots := s.slots

/-- `TimerManager::AddNode`. -/
def addNode (s : TimerManager) (x : NodeId) : Except Fault TimerManager := do
  let w ← s.wheel.addNode x
  return { s with slots := w.slots }

/-! ### The public interface -/

/-- `TimerManager::Destroy`. -/
def destroy (event : Event) (s : TimerManager) : TimerManager :=
  match s.managerMap event with
  | none => s
  | some x => s.perform x (TimerNode.destroy x)

/-- `TimerManager::Pause`. The entry that it inserts again goes into `_normal`, the
map it has just been erased from. The source reads the node for it through the
erased iterator; that value is taken to be the node found. -/
def pause (event : Event) (s : TimerManager) : Outcome × TimerManager :=
  match s.normalMap event with
  | none => (.returned false, s)
  | some x =>
    let s := s.perform x (TimerNode.pause x s.tickTime)
    let s := { s with normalMap := PartialMap.erase s.normalMap event }
    (.returned true, { s with normalMap := PartialMap.insert s.normalMap event x })

/-- `TimerManager::Resume`. -/
def resume (event : Event) (s : TimerManager) : Outcome × TimerManager :=
  match s.pauseMap event with
  | none => (.returned false, s)
  | some x =>
    let s := s.perform x (TimerNode.resume x s.tickTime)
    match s.addNode x with
    | .error _ => (.threw, s)
    | .ok s =>
      let s := { s with pauseMap := PartialMap.erase s.pauseMap event }
      (.returned true, { s with normalMap := PartialMap.insert s.normalMap event x })

/-- What both forms of `Start` do for an event that is not registered. When
`AddNode` throws, the only pointer to the new node goes away with the stack frame
and its destructor runs. -/
def register (event : Event) (count : Int64) (interval : ℤ) (s : TimerManager) :
    Outcome × TimerManager :=
  let x := s.nextNode
  let s := s.makeShared (.make event count (interval + s.tickTime) interval)
  match s.addNode x with
  | .error _ => (.threw, s.perform x (TimerNode.destroy x))
  | .ok s =>
    (.returned true,
      { s with
        managerMap := PartialMap.insert s.managerMap event x
        normalMap := PartialMap.insert s.normalMap event x })

/-- `TimerManager::Start(event, count, interval)`. -/
def start (event : Event) (count : Int64) (interval : ℤ) (s : TimerManager) :
    Outcome × TimerManager :=
  if s.managerMap event ≠ none then (.returned false, s)
  else s.register event count interval

/-- `TimerManager::Start(function, count, interval)`: the event is an object just
made, one for each node. -/
def startFunction (count : Int64) (interval : ℤ) (s : TimerManager) : Outcome × TimerManager :=
  let event := Event.instanceTimerEvent s.nextNode
  if s.managerMap event = none then s.register event count interval
  else (.returned false, s)

/-- The state a call leaves. -/
def call (s : TimerManager) : Call → TimerManager
  | .start event count interval => (s.start event count interval).2
  | .startFunction count interval => (s.startFunction count interval).2
  | .destroy event => s.destroy event
  | .pause event => (s.pause event).2
  | .resume event => (s.resume event).2

/-! ### The driver -/

/-- The calls of an `OnTrigger`, one after the other. -/
def calls (s : TimerManager) (cs : List Call) : TimerManager := cs.foldl call s

/-- `TimerNode::Trigger` of node `x`. -/
def trigger (h : Handlers) (x : NodeId) (s : TimerManager) : TimerManager :=
  let s :=
    if (s.node x).isValid then
      let s := s.perform x fun n => ({ n with expire := n.expire + n.interval }, [])
      if (s.node x).count ≠ 0 then
        let s := { s with log := s.log ++ [Callback.onTrigger x] }
        let s := s.calls (h s (s.node x).event)
        s.perform x fun n => ({ n with count := n.count - 1 }, [])
      else s
    else s
  if (s.node x).count = 0 then
    s.perform x fun n => ({ n with isValid := false }, [.onStop x false])
  else s

/-- `TimerNode::RevisedExpire` of node `x`. -/
def revisedExpire (s : TimerManager) (x : NodeId) : Except Fault TimerManager := do
  let n ← (s.node x).revisedExpire s.tickTime
  return { s with node := Function.update s.node x n }

/-- The body of the loop of `Executes`. -/
def visit (h : Handlers) (s : TimerManager) (x : NodeId) : Except Fault TimerManager :=
  if (s.node x).isValid then
    if (s.node x).isPause then .ok s
    else do
      let s ← (s.trigger h x).revisedExpire x
      s.addNode x
  else
    .ok { s with
      pauseMap := PartialMap.erase s.pauseMap (s.node x).event
      normalMap := PartialMap.erase s.normalMap (s.node x).event
      managerMap := PartialMap.erase s.managerMap (s.node x).event }

/-- `Executes` up to its loop, with the list the loop runs over. -/
def advance (s : TimerManager) : Except Fault (List NodeId × TimerManager) := do
  let (spokesList, w) ← s.wheel.advance
  return (spokesList, { s with tickTime := w.tickTime, slots := w.slots })

/-- Whether a slot or a map points to node `x`. A map holds a node under the event
of the node only. -/
def Holds (s : TimerManager) (x : NodeId) : Prop :=
  s.managerMap (s.node x).event = some x ∨ s.normalMap (s.node x).event = some x ∨
    s.pauseMap (s.node x).event = some x ∨ ∃ slot, x ∈ s.slots slot

instance (s : TimerManager) (x : NodeId) : Decidable (s.Holds x) :=
  inferInstanceAs (Decidable (_ ∨ _ ∨ _ ∨ _))

/-- A pointer to node `x` goes away; if it was the last one, the destructor
runs. -/
def release (s : TimerManager) (x : NodeId) : TimerManager :=
  if s.Holds x then s else s.perform x (TimerNode.destroy x)

/-- `TimerManager::Executes`; the list goes away when it returns. -/
def executes (h : Handlers) (s : TimerManager) : Except Fault TimerManager := do
  let (spokesList, s) ← s.advance
  let s ← spokesList.foldlM (visit h) s
  return spokesList.foldl release s

/-- `TimerManager::~TimerManager`: the slots and the maps go away, and with them
every node that has been made. -/
def shutdown (s : TimerManager) : TimerManager :=
  (List.range s.nextNode).foldl release
    { s with
      slots := fun _ => []
      pauseMap := fun _ => none
      normalMap := fun _ => none
      managerMap := fun _ => none }

/-! ### Runs -/

/-- A step of a run: a call from outside, or an `Executes` of the driver. -/
inductive Label where
  | call (c : Call) : Label
  | executes (h : Handlers) : Label

/-- The steps of a manager. An `Executes` that faults takes the program down and is
no step. -/
inductive Step : TimerManager → Label → TimerManager → Prop
  | call {s : TimerManager} (c : Call) : Step s (.call c) (s.call c)
  | executes {s s' : TimerManager} {h : Handlers} : s.executes h = .ok s' → Step s (.executes h) s'

/-- Every call a step makes, itself or from its `OnTrigger`s, is admissible. -/
def Label.All (P : Call → Prop) : Label → Prop
  | .call c => P c
  | .executes h => h.All P

theorem Label.all_true (l : Label) : l.All fun _ => True := by
  cases l with
  | call c => trivial
  | executes h => exact fun _ _ _ _ => trivial

/-- The states that runs of admissible calls lead to. -/
def Reachable (P : Call → Prop) (s : TimerManager) : Prop :=
  ∃ ls : List Label, (∀ l ∈ ls, l.All P) ∧ Lts.Run Step init ls s

variable {P : Call → Prop} {s s' : TimerManager}

theorem reachable_init : Reachable P init := ⟨[], by simp, .nil _⟩

/-- Whatever the calls have been. -/
theorem Reachable.any (hs : Reachable P s) : Reachable (fun _ => True) s := by
  obtain ⟨ls, -, hrun⟩ := hs
  exact ⟨ls, fun l _ => l.all_true, hrun⟩

theorem Reachable.step {l : Label} (hs : Reachable P s) (hl : l.All P) (hstep : Step s l s') :
    Reachable P s' := by
  obtain ⟨ls, hls, hrun⟩ := hs
  refine ⟨ls ++ [l], fun l' hl' => ?_, hrun.snoc hstep⟩
  rcases List.mem_append.mp hl' with hl' | hl'
  · exact hls l' hl'
  · rwa [List.mem_singleton.mp hl']

theorem Reachable.run {ls : List Label} (hs : Reachable P s) (hls : ∀ l ∈ ls, l.All P)
    (hrun : Lts.Run Step s ls s') : Reachable P s' := by
  refine hrun.preserves (I := Reachable P) (P := fun l => l.All P) ?_ hls hs
  exact fun hs hl hstep => hs.step hl hstep

theorem Reachable.call (hs : Reachable P s) {c : Call} (hc : P c) : Reachable P (s.call c) :=
  hs.step (l := .call c) hc (.call c)

theorem Reachable.executes (hs : Reachable P s) {h : Handlers} (hh : h.All P)
    (hex : s.executes h = .ok s') : Reachable P s' :=
  hs.step (l := .executes h) hh (.executes hex)

end TimerManager

/-- The interval given to a `Start` is at least one. -/
def Call.Positive : Call → Prop
  | .start _ _ interval => 1 ≤ interval
  | .startFunction _ interval => 1 ≤ interval
  | _ => True

end Timer

end MToolkit

import MToolkit.Library.Buckets
import MToolkit.Library.CyclicBlocks
import MToolkit.Timer.Node
import Mathlib.Tactic.DeriveFintype

/-!
# The timing wheel

The slots of a `TimerManager` and the three pieces of `timer/manager.cpp` that
touch nothing else: `AddNode`, `Cascade` and the first half of `Executes`, which
cascades, moves the clock and swaps the near slot of the tick out. They are
written here for an arbitrary type of nodes, with the expiry time of a node read
from the state when the code calls `Expire()`, so that the same definitions serve
the manager (`MToolkit.Timer.TimerManager`), whose nodes change while they are
out of the wheel, and the study of the wheel by itself.

The near list has one slot for each of the next `2 ^ 8` ticks. The slots of wheel
`w` stand for blocks of `2 ^ (8 + 6 * w)` ticks, `2 ^ 6` of them to a turn; when
the clock reaches a block its slot is *cascaded*, its nodes being inserted afresh
at their new distance.
-/

namespace MToolkit

namespace Timer

open CyclicBlocks Buckets

/-! ### The slots -/

/-- `TIMER_WHEEL_NUM` -/
abbrev timerWheelNum : ℕ := 4

/-- `TIMER_NEAR_BITS` -/
abbrev timerNearBits : ℕ := 8

/-- `TIMER_WHEEL_BITS` -/
abbrev timerWheelBits : ℕ := 6

/-- A slot: `_nearList[i]` or `_wheelList[w][i]`. -/
inductive Slot where
  | near (i : Fin (2 ^ timerNearBits)) : Slot
  | wheel (w : Fin timerWheelNum) (i : Fin (2 ^ timerWheelBits)) : Slot
  deriving DecidableEq, Fintype

/-- The number of low bits of a tick that the slots of wheel `w` do not tell
apart. -/
def wheelShift (w : ℕ) : ℕ := timerNearBits + w * timerWheelBits

theorem wheelShift_eq (w : ℕ) : wheelShift w = 8 + w * 6 := rfl

/-- The comparison `(uint64_t)x < k` for a `std::time_t` value `x` and a constant
`k`: a negative `x` is converted to a value of at least `2 ^ 63`. -/
def UnsignedLt (x k : ℤ) : Prop := 0 ≤ x ∧ x < k

instance (x k : ℤ) : Decidable (UnsignedLt x k) := inferInstanceAs (Decidable (_ ∧ _))

/-- `UnsignedLt` is the comparison after conversion modulo `2 ^ 64`, over the
whole range of a 64-bit `std::time_t`. -/
theorem unsignedLt_iff_emod {x k : ℤ} (hlo : -2 ^ 63 ≤ x) (hhi : x < 2 ^ 63) (hk : k ≤ 2 ^ 63) :
    UnsignedLt x k ↔ x % 2 ^ 64 < k := by
  rw [UnsignedLt]
  rcases lt_or_ge x 0 with hneg | hpos
  · have : x % 2 ^ 64 = x + 2 ^ 64 := by omega
    omega
  · have : x % 2 ^ 64 = x := by omega
    omega

/-- The slot `AddNode` puts a node in, given the tick and the node's expiry;
`none` is the throw. -/
def addSlot (tick expire : ℤ) : Option Slot :=
  let offset := expire - tick
  if UnsignedLt offset (2 ^ timerNearBits) then
    some (.near (index 0 timerNearBits expire))
  else if UnsignedLt offset (2 ^ (timerNearBits + timerWheelBits)) then
    some (.wheel 0 (index timerNearBits timerWheelBits expire))
  else if UnsignedLt offset (2 ^ (timerNearBits + 2 * timerWheelBits)) then
    some (.wheel 1 (index (timerNearBits + timerWheelBits) timerWheelBits expire))
  else if UnsignedLt offset (2 ^ (timerNearBits + 3 * timerWheelBits)) then
    some (.wheel 2 (index (timerNearBits + 2 * timerWheelBits) timerWheelBits expire))
  else if offset < 0 then
    some (.near (index 0 timerNearBits tick))
  else if UnsignedLt offset (0xffffffff + 1) then
    some (.wheel 3 (index (timerNearBits + 3 * timerWheelBits) timerWheelBits expire))
  else
    none

/-! ### The wheel and what is done to it -/

/-- The part of a `TimerManager` that the wheel code works on. -/
structure Wheel (α : Type) where
  /-- `_tickTime` -/
  tickTime : ℤ
  /-- `Expire()` of each node. -/
  expire : α → ℤ
  /-- `_nearList` and `_wheelList` -/
  slots : Slot → List α

namespace Wheel

variable {α : Type}

/-- An empty wheel at tick `0`, the nodes having the given expiry times. -/
def init (expire : α → ℤ) : Wheel α where
  tickTime := 0
  expire := expire
  slots := fun _ => []

/-- `TimerManager::AddNode`. -/
def addNode (m : Wheel α) (node : α) : Except Fault (Wheel α) :=
  match addSlot m.tickTime (m.expire node) with
  | some slot => .ok { m with slots := push m.slots slot node }
  | none => .error .intervalLimit

/-- `TimerManager::Cascade`. -/
def cascade (m : Wheel α) (wheel : Fin timerWheelNum) (idx : Fin (2 ^ timerWheelBits)) :
    Except Fault (Bool × Wheel α) := do
  let spokesList := m.slots (.wheel wheel idx)
  let m ← spokesList.foldlM addNode { m with slots := clear m.slots (.wheel wheel idx) }
  return (decide ((idx : ℕ) = 0), m)

/-- `Cascade` of wheel `w` at the slot `Executes` computes for it. -/
def cascadeAt (m : Wheel α) (w : Fin timerWheelNum) : Except Fault (Bool × Wheel α) :=
  m.cascade w (index (wheelShift w) timerWheelBits m.tickTime)

/-- The nested calls of `Cascade` in `Executes`: a wheel is cascaded when the one
below it has just come round to its first slot. -/
def cascades (m : Wheel α) : Except Fault (Wheel α) := do
  let (zero, m) ← m.cascadeAt 0
  if zero then
    let (zero, m) ← m.cascadeAt 1
    if zero then
      let (zero, m) ← m.cascadeAt 2
      if zero then
        let (_, m) ← m.cascadeAt 3
        return m
      else return m
    else return m
  else return m

/-- `TimerManager::Executes` up to its loop: cascade, `++_tickTime`, and swap the
near slot of the tick out. The list returned is the `spokesList` that the loop
then runs over. -/
def advance (m : Wheel α) : Except Fault (List α × Wheel α) := do
  let idx := index 0 timerNearBits m.tickTime
  let m ← (if (idx : ℕ) = 0 then m.cascades else pure m)
  return (m.slots (.near idx),
    { m with tickTime := m.tickTime + 1, slots := clear m.slots (.near idx) })

/-! ### Runs of the wheel

What the rest of the program does to the wheel: insert nodes, between calls and
from the loop of `Executes`, and change the expiry of nodes that are in no slot. -/

/-- What can happen to a wheel. -/
inductive Label (α : Type) where
  /-- `AddNode(x)`. -/
  | addNode (x : α) : Label α
  /-- The expiry of `x`, which is in no slot, becomes `e`. -/
  | touch (x : α) (e : ℤ) : Label α
  /-- `Executes`, handing the given list to its loop. -/
  | executes (handed : List α) : Label α

variable [DecidableEq α]

/-- The steps of a wheel. -/
inductive Step : Wheel α → Label α → Wheel α → Prop
  | addNode {m m' : Wheel α} {x : α} : m.addNode x = .ok m' → Step m (.addNode x) m'
  | touch {m : Wheel α} {x : α} {e : ℤ} : x ∉ contents m.slots →
      Step m (.touch x e) { m with expire := Function.update m.expire x e }
  | executes {m m' : Wheel α} {handed : List α} : m.advance = .ok (handed, m') →
      Step m (.executes handed) m'

end Wheel

end Timer

end MToolkit

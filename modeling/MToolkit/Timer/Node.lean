import Mathlib.Algebra.Order.Ring.Int
import Mathlib.Tactic

/-!
# Timer nodes

The class `TimerNode` (`timer/node.h`, `timer/node.cpp`) and the identities it
deals in. A node is one registration of an event with the timer manager: its
remaining count, the tick it expires at, its period and two flags.

`std::time_t` is a signed integer and is modelled by `ℤ`: signed overflow is
undefined in the source and no run gets near it. `_count` is `uint64_t` and is
modelled by `UInt64`, since the constructor converts a signed count to it.

The methods that call into the event report the calls they make, in order, as a
list of `MToolkit.Timer.Callback`s. `TimerNode::Trigger` is not here: its
`OnTrigger` may call back into the manager, so it is a step of the manager
(`MToolkit.Timer.TimerManager.trigger`).
-/

namespace MToolkit

namespace Timer

/-- The identity of an `ITimerEvent`: what a `std::shared_ptr<ITimerEvent>`
compares. -/
inductive Event where
  /-- An event object of the caller. -/
  | given (id : ℕ) : Event
  /-- The `InstanceTimerEvent` that `Start(function, …)` wraps a function in. -/
  | instanceTimerEvent (id : ℕ) : Event
  deriving DecidableEq

/-- The identity of a `TimerNode`: what a `std::shared_ptr<TimerNode>` points
to. -/
abbrev NodeId := ℕ

/-- A call a node makes on its event. -/
inductive Callback where
  | onPause (node : NodeId) : Callback
  | onResume (node : NodeId) : Callback
  | onTrigger (node : NodeId) : Callback
  | onStop (node : NodeId) (forced : Bool) : Callback
  deriving DecidableEq

/-- The node a callback comes from. -/
def Callback.node : Callback → NodeId
  | onPause x => x
  | onResume x => x
  | onTrigger x => x
  | onStop x _ => x

/-- What can end a call of the timer other than by returning. -/
inductive Fault where
  /-- `AddNode` throws “The timing interval exceeds the maximum limit”. -/
  | intervalLimit : Fault
  /-- `RevisedExpire` divides by zero. -/
  | divideByZero : Fault
  deriving DecidableEq

/-- The fields of a `TimerNode`. -/
structure TimerNode where
  /-- `_isValid` -/
  isValid : Bool := true
  /-- `_isPause` -/
  isPause : Bool := false
  /-- `_count` -/
  count : UInt64 := 0
  /-- `_expire` -/
  expire : ℤ := 0
  /-- `_interval` -/
  interval : ℤ := 0
  /-- `_pauseTick` -/
  pauseTick : ℤ := 0
  /-- `_event` -/
  event : Event

namespace TimerNode

/-- The constructor; `int64_t count` is converted to `uint64_t`. -/
def make (event : Event) (count : Int64) (expire interval : ℤ) : TimerNode where
  count := count.toUInt64
  expire := expire
  interval := interval
  event := event

/-- `TimerNode::Destroy`, which is also all the destructor does. -/
def destroy (self : NodeId) (n : TimerNode) : TimerNode × List Callback :=
  if n.isValid then ({ n with isValid := false }, [.onStop self true]) else (n, [])

/-- `TimerNode::Pause`. -/
def pause (self : NodeId) (tick : ℤ) (n : TimerNode) : TimerNode × List Callback :=
  if n.isValid && !n.isPause then
    ({ n with isPause := true, pauseTick := tick }, [.onPause self])
  else (n, [])

/-- `TimerNode::Resume`. -/
def resume (self : NodeId) (tick : ℤ) (n : TimerNode) : TimerNode × List Callback :=
  if n.isValid && n.isPause then
    ({ n with expire := tick + n.expire - n.pauseTick, isPause := false }, [.onResume self])
  else (n, [])

/-- `TimerNode::RevisedExpire`. The division of two `std::time_t` truncates
towards zero, and by zero it does not return. -/
def revisedExpire (tick : ℤ) (n : TimerNode) : Except Fault TimerNode :=
  let interval := n.expire - tick
  if interval < 0 ∧ (interval.natAbs : ℤ) > n.interval then
    if n.interval = 0 then .error .divideByZero
    else .ok { n with expire := n.expire + (interval.natAbs : ℤ).tdiv n.interval * n.interval }
  else .ok n

/-! ### What `RevisedExpire` does to a node -/

/-- The truncated quotient, multiplied back, lies between zero and the
dividend. -/
theorem tdiv_mul_mem {a : ℤ} (ha : 0 ≤ a) (b : ℤ) : 0 ≤ a.tdiv b * b ∧ a.tdiv b * b ≤ a := by
  constructor
  · rcases le_total 0 b with hb | hb
    · exact mul_nonneg (Int.tdiv_nonneg ha hb) hb
    · exact mul_nonneg_of_nonpos_of_nonpos (Int.tdiv_nonpos_of_nonneg_of_nonpos ha hb) hb
  · have hmod : 0 ≤ a.tmod b := Int.tmod_nonneg b ha
    have hsum : a.tdiv b * b + a.tmod b = a := Int.tdiv_mul_add_tmod a b
    omega

variable {n n' : TimerNode} {tick : ℤ}

/-- **The catch-up never overshoots the clock**: it moves the expiry forwards by
whole periods, and a late node to no later than the tick. -/
theorem revisedExpire_ok (h : n.revisedExpire tick = .ok n') :
    ∃ e, n' = { n with expire := e } ∧ n.expire ≤ e ∧ e ≤ max n.expire tick ∧
      n.interval ∣ e - n.expire := by
  rw [revisedExpire] at h
  split_ifs at h with hlate hzero
  · obtain ⟨hneg, -⟩ := hlate
    have hmem := tdiv_mul_mem (Int.natCast_nonneg (n.expire - tick).natAbs) n.interval
    refine ⟨_, (Except.ok.inj h).symm, by omega, by omega, ?_⟩
    rw [add_sub_cancel_left]
    exact Dvd.intro_left _ rfl
  · exact ⟨n.expire, (Except.ok.inj h).symm, le_rfl, le_max_left _ _, by simp⟩

/-- The expiry after the catch-up, where there is a period: forwards by the whole periods of
the lateness, if this is more than one. -/
def caughtUp (expire interval tick : ℤ) : ℤ :=
  if interval < tick - expire then expire + (tick - expire) / interval * interval else expire

/-- **What the catch-up computes**, for a period of at least one. -/
theorem revisedExpire_of_pos (n : TimerNode) (tick : ℤ) (h : 1 ≤ n.interval) :
    n.revisedExpire tick = .ok { n with expire := caughtUp n.expire n.interval tick } := by
  rw [revisedExpire, caughtUp]
  by_cases hlate : n.interval < tick - n.expire
  · have habs : ((n.expire - tick).natAbs : ℤ) = tick - n.expire := by omega
    rw [if_pos (by omega), if_neg (by omega), if_pos hlate, habs,
      Int.tdiv_eq_ediv_of_nonneg (by omega)]
  · rw [if_neg (by omega), if_neg hlate]

/-- **When the catch-up divides by zero**: exactly for a late node of period
zero. -/
theorem revisedExpire_eq_error {f : Fault} :
    n.revisedExpire tick = .error f ↔ f = .divideByZero ∧ n.interval = 0 ∧ n.expire < tick := by
  rw [revisedExpire]
  split_ifs with hlate hzero
  · have : n.expire < tick := by have := hlate.1; omega
    simp [hzero, this, eq_comm]
  · simp [hzero]
  · simp only [false_iff, not_and]
    intro _ hzero hlt
    exact hlate ⟨by omega, by omega⟩

end TimerNode

end Timer

end MToolkit

import MToolkit.Timer.Registration
import MToolkit.Timer.Track

/-!
# Late timers

`Start` reads `_tickTime` for the expiry of its node and `AddNode` reads it again, with the
driver free to move it in between: the node can be late before it is in the wheel. `AddNode`
then puts it into the near slot of the current tick, so it is visited by the next `Executes`.
How late it is after that is a matter of `RevisedExpire`, which takes whole periods off only
where there is more than one:

| lateness after the first firing | second firing | from then on |
|---|---|---|
| none | on the grid | on the grid |
| less than a period | one tick later | on the grid |
| a period | one tick later, one tick late | a third firing one tick later, then on the grid |
| more | what is left of it | less than a period late, so on the grid |

The grid is that of the ticks `e + i`, `e + 2i`, …, for the expiry `e` of the `Start` and the
period `i`.
-/

namespace MToolkit

namespace Timer

open Buckets Fallible Lts

/-! ### How late a node can be -/

/-- **How late a node is** at tick `k`, if it expires at `expire`: it was inserted at tick `t`,
late for its expiry `e`. -/
structure Lateness (i e t k expire : ℤ) : Prop where
  dvd : i ∣ expire - e
  lt : expire < k + i
  late : expire < k → k = t ∨ (k = t + 1 ∧ k - expire ≤ i) ∨ (k = t + 2 ∧ k - expire ≤ 1)
  first : k = t → expire < k

namespace Lateness

variable {i e t k expire : ℤ}

/-- A node that is not due waits. -/
theorem wait (h : Lateness i e t k expire) (ht : t ≤ k) (hlt : k < expire) :
    Lateness i e t (k + 1) expire where
  dvd := h.dvd
  lt := by have := h.lt; omega
  late := fun hlate => by omega
  first := fun hk => by omega

/-- **A node that fires** moves on by its period and catches up. -/
theorem fire (h : Lateness i e t k expire) (hi : 2 ≤ i) (ht : t ≤ k) (hdue : expire ≤ k) :
    Lateness i e t (k + 1) (TimerNode.caughtUp (expire + i) i (k + 1)) := by
  have hlt := h.lt
  have hdvd : i ∣ expire + i - e := by
    rw [show expire + i - e = expire - e + i by ring]
    exact dvd_add h.dvd dvd_rfl
  rw [TimerNode.caughtUp]
  split_ifs with hfar
  · -- more than a period late: what is left is less than one
    have hfirst : k = t := by
      rcases hdue.lt_or_eq with hlate | rfl
      · rcases h.late hlate with hk | ⟨-, hk⟩ | ⟨-, hk⟩ <;> omega
      · omega
    have hrem := Int.emod_add_mul_ediv (k + 1 - (expire + i)) i
    have hnonneg := Int.emod_nonneg (k + 1 - (expire + i)) (show i ≠ 0 by omega)
    have hlt' := Int.emod_lt_of_pos (k + 1 - (expire + i)) (show 0 < i by omega)
    rw [mul_comm i] at hrem
    refine ⟨?_, by omega, fun _ => .inr (.inl ⟨by omega, by omega⟩), fun hk => by omega⟩
    rw [show expire + i + (k + 1 - (expire + i)) / i * i - e =
      expire + i - e + (k + 1 - (expire + i)) / i * i by ring]
    exact dvd_add hdvd (dvd_mul_left i _)
  · refine ⟨hdvd, by omega, fun hlate => ?_, fun hk => by omega⟩
    rcases hdue.lt_or_eq with hlate' | rfl
    · rcases h.late hlate' with rfl | ⟨rfl, hk⟩ | ⟨rfl, hk⟩
      · exact .inr (.inl ⟨rfl, by omega⟩)
      · exact .inr (.inr ⟨by omega, by omega⟩)
      · omega
    · omega

/-- **On the grid**: from the third tick after its insertion on, a node is due just when a whole
number of periods has passed. -/
theorem due_iff (h : Lateness i e t k expire) (hk : t + 2 < k) : expire ≤ k ↔ i ∣ k - e := by
  have hlt := h.lt
  have hge : k ≤ expire := by
    by_contra hlate
    rcases h.late (by omega) with hk | ⟨hk, -⟩ | ⟨hk, -⟩ <;> omega
  constructor
  · intro hle
    rw [show k = expire by omega]
    exact h.dvd
  · intro hdvd
    -- the next expiry and the tick are both on the grid, and less than a period apart
    have hdiff : i ∣ expire - k := by
      rw [show expire - k = expire - e - (k - e) by ring]
      exact dvd_sub h.dvd hdvd
    have hzero : expire - k = 0 :=
      Int.eq_zero_of_dvd_of_nonneg_of_lt (by omega) (by omega) hdiff
    omega

end Lateness

/-! ### Late starts -/

namespace TimerManager

/-- What `Start` does once the node has its expiry, which it was given at an earlier tick. -/
def registerLate (event : Event) (count : Int64) (interval expire : ℤ) (s : TimerManager) :
    Outcome × TimerManager :=
  let x := s.nextNode
  let s := s.makeShared (.make event count expire interval)
  match s.addNode x with
  | .error _ => (.threw, s.perform x (TimerNode.destroy x))
  | .ok s =>
    (.returned true,
      { s with
        managerMap := PartialMap.insert s.managerMap event x
        normalMap := PartialMap.insert s.normalMap event x })

/-- `TimerManager::Start(event, count, interval)`, for an expiry it was given at an earlier
tick. -/
def startLate (event : Event) (count : Int64) (interval expire : ℤ) (s : TimerManager) :
    Outcome × TimerManager :=
  if s.managerMap event ≠ none then (.returned false, s)
  else s.registerLate event count interval expire

/-- With no tick in between, this is `Start`. -/
theorem startLate_eq_start (event : Event) (count : Int64) (interval : ℤ) (s : TimerManager) :
    s.startLate event count interval (interval + s.tickTime) = s.start event count interval := rfl

/-- A step of a run, or a `Start` that the driver has overtaken. -/
inductive LateLabel where
  | label (l : Label) : LateLabel
  | start (event : Event) (count : Int64) (interval expire : ℤ) : LateLabel

/-- The steps of a manager whose driver runs beside the calls of `Start`, these being within
the limit. -/
inductive LateStep : TimerManager → LateLabel → TimerManager → Prop
  | label {s s' : TimerManager} {l : Label} : Step s l s' → LateStep s (.label l) s'
  | start {s : TimerManager} {event : Event} {count : Int64} {interval expire : ℤ} :
      interval ≤ 0xffffffff → expire ≤ interval + s.tickTime →
      LateStep s (.start event count interval expire)
        (s.startLate event count interval expire).2

/-- Every call that a step makes is admissible. -/
def LateLabel.All (P : Call → Prop) : LateLabel → Prop
  | .label l => l.All P
  | .start _ _ _ _ => True

variable {s s' : TimerManager} {interval expire : ℤ} {p : List NodeId}

/-- A late `Start` of an event that is not registered. -/
theorem Inv.startLate_of_none (hI : Inv p s) {event : Event} (count : Int64)
    (hm : s.managerMap event = none) (hint : interval ≤ 0xffffffff)
    (hexp : expire ≤ interval + s.tickTime) :
    ∃ slot, addSlot s.tickTime expire = some slot ∧
      s.startLate event count interval expire = (.returned true,
        { s with
          node := Function.update s.node s.nextNode (.make event count expire interval)
          nextNode := s.nextNode + 1
          slots := push s.slots slot s.nextNode
          managerMap := Function.update s.managerMap event (some s.nextNode)
          normalMap := Function.update s.normalMap event (some s.nextNode) }) := by
  rcases hslot : addSlot s.tickTime expire with _ | slot
  · have hlimit := addSlot_eq_none.mp hslot
    omega
  · refine ⟨slot, rfl, ?_⟩
    have hn : s.normalMap event = none := by rw [hI.agree.normal, hm]
    have hslot' : addSlot s.tickTime ((s.makeShared (.make event count expire interval)).node
        s.nextNode).expire = some slot := by
      simpa [makeShared, TimerNode.make] using hslot
    rw [startLate, if_neg (by simp [hm]), registerLate]
    simp only [addNode_of_slot slot hslot']
    simp [makeShared, PartialMap.insert_of_none, hm, hn]

/-- **A late `Start`** keeps the invariant and spares the nodes that are there. -/
theorem Inv.startLate (hI : Inv p s) (event : Event) (count : Int64)
    (hint : interval ≤ 0xffffffff) (hexp : expire ≤ interval + s.tickTime) :
    Inv p (s.startLate event count interval expire).2 ∧
      ∀ x < s.nextNode, Spared x s (s.startLate event count interval expire).2 := by
  cases hm : s.managerMap event with
  | some y =>
    rw [TimerManager.startLate, if_pos (by simp [hm])]
    exact ⟨hI, fun x _ => .refl x s⟩
  | none =>
    obtain ⟨slot, hslot, hstart⟩ := hI.startLate_of_none count hm hint hexp
    rw [hstart]
    refine ⟨hI.started hm hint hslot, fun x hx => ?_⟩
    refine ⟨rfl, Nat.le_succ _, Function.update_of_ne hx.ne _ _, rfl, ?_, fun event' => ?_⟩
    · rw [contents_push, Multiset.mem_cons, or_iff_right hx.ne]
    · rw [PartialMap.update_eq_some]
      constructor
      · rintro (⟨-, rfl⟩ | ⟨-, h⟩)
        · exact absurd hx (lt_irrefl _)
        · exact h
      · refine fun h => .inr ⟨?_, h⟩
        rintro rfl
        rw [hm] at h
        cases h

/-- Every step keeps the invariant. -/
theorem LateStep.inv {l : LateLabel} (hs : LateStep s l s') (hI : Inv [] s) : Inv [] s' := by
  cases hs with
  | label hs => exact hs.inv hI
  | start hint hexp => exact (hI.startLate _ _ hint hexp).1

end TimerManager

end Timer

end MToolkit

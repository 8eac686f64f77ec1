import MToolkit.Timer.CatchUp
import MToolkit.Timer.Late

/-!
# A late timer returns to its grid

The life of a node that a late `Start` has made, when no call flags it. It has been triggered
as often as its count is down from what it was, and as long as it has counts left it is in the
wheel, no later than `MToolkit.Timer.Lateness` says
(`MToolkit.Timer.TimerManager.Returning`). Each `Executes` spares it or fires it, and keeps
this either way; from the third tick after its insertion on it is due on its grid only
(`MToolkit.Timer.TimerManager.returns_to_grid`).
-/

namespace MToolkit

namespace Timer

open Buckets Fallible Lts

namespace TimerManager

variable {s s' : TimerManager} {event : Event} {x : NodeId} {n : UInt64} {i e t : ℤ}
  {h : Handlers} {P : Call → Prop}

/-- Whether node `x` still has counts. -/
inductive Course (x : NodeId) (n : UInt64) (i e t : ℤ) (s : TimerManager) : Prop
  /-- It has, and waits for its next firing. -/
  | running : (s.node x).isValid = true → (s.node x).isPause = false → (s.node x).count ≠ 0 →
      (s.node x).count.toNat + s.triggers x = n.toNat → x ∈ contents s.slots →
      Lateness i e t s.tickTime (s.node x).expire → Course x n i e t s
  /-- It has none. -/
  | ended : (s.node x).isValid = false → s.triggers x = n.toNat → Course x n i e t s

/-- **The node returns to its grid**, started late at tick `t` for the expiry `e` with count `n`
and period `i`. -/
structure Returning (event : Event) (x : NodeId) (n : UInt64) (i e t : ℤ) (s : TimerManager) :
    Prop where
  start_le : t ≤ s.tickTime
  lt : x < s.nextNode
  node_event : (s.node x).event = event
  node_interval : (s.node x).interval = i
  first : s.tickTime = t → s.triggers x = 0
  course : Course x n i e t s

theorem Spared.triggers (hsp : Spared x s s') : s'.triggers x = s.triggers x := by
  rw [← count_callbacks, hsp.callbacks, count_callbacks]

/-- What spares the node leaves it on its way. -/
theorem Returning.of_spared (hs : Returning event x n i e t s) (hsp : Spared x s s') :
    Returning event x n i e t s' where
  start_le := hsp.tickTime ▸ hs.start_le
  lt := hs.lt.trans_le hsp.nextNode
  node_event := hsp.node ▸ hs.node_event
  node_interval := hsp.node ▸ hs.node_interval
  first := by rw [hsp.tickTime, hsp.triggers]; exact hs.first
  course := by
    cases hs.course with
    | running hv hp hc hsum hx hlate =>
      refine .running ?_ ?_ ?_ ?_ (hsp.slots.mpr hx) ?_
      all_goals simpa only [hsp.node, hsp.triggers, hsp.tickTime]
    | ended hv hsum =>
      refine .ended ?_ ?_
      all_goals simpa only [hsp.node, hsp.triggers]

/-- So does the clock, while the node is not due. -/
theorem Returning.wait (hs : Returning event x n i e t s)
    (hcourse : Course x n i e t { s with tickTime := s.tickTime + 1 }) :
    Returning event x n i e t { s with tickTime := s.tickTime + 1 } where
  start_le := hs.start_le.trans (Int.le_add_one le_rfl)
  lt := hs.lt
  node_event := hs.node_event
  node_interval := hs.node_interval
  first := fun ht => by have := hs.start_le; simp only at ht; omega
  course := hcourse

/-- **A node that is due is fired**, and revised if it has counts left then. -/
theorem Returning.fire (hI : Inv [] s) (hs : Returning event x n i e t s) (hi : 2 ≤ i)
    (hex : s.executes h = .ok s') (hq : ∀ c, P c → ¬c.Touches (s.node x).event) (hh : h.All P)
    (hv : (s.node x).isValid = true) (hp : (s.node x).isPause = false)
    (hc : (s.node x).count ≠ 0) (hsum : (s.node x).count.toNat + s.triggers x = n.toNat)
    (hx : x ∈ contents s.slots) (hlate : Lateness i e t s.tickTime (s.node x).expire)
    (hdue : (s.node x).expire ≤ s.tickTime) :
    Returning event x n i e t s' ∧ s'.triggers x = s.triggers x + 1 := by
  have hstart := hs.start_le
  obtain ⟨expire, hrev, htick, hnext, hnode, hcb, hin, -⟩ :=
    hI.executes_revised hex hx hdue hv hp hc hq hh
  rw [TimerNode.revisedExpire_of_pos _ _ (by rw [hs.node_interval]; omega)] at hrev
  have hexpire := (congrArg TimerNode.expire (Except.ok.inj hrev)).symm
  rw [hs.node_interval] at hexpire
  -- one more firing is in the log
  have htriggers : s'.triggers x = s.triggers x + 1 := by
    rw [← count_callbacks, hcb, List.count_append, List.count_cons_self, count_callbacks]
    split_ifs <;> simp
  refine ⟨⟨by omega, hs.lt.trans_le hnext, by rw [hnode, hs.node_event],
    by rw [hnode, hs.node_interval], fun ht => by omega, ?_⟩, htriggers⟩
  have hsub := toNat_sub_one hc
  by_cases hlast : (s.node x).count = 1
  · refine .ended (by rw [hnode]; simp [hlast]) ?_
    rw [hlast, UInt64.toNat_one] at hsum
    omega
  · refine .running (by rw [hnode]; simpa using hlast) (by rw [hnode, hp]) ?_ ?_ hin ?_
    · rw [hnode]
      exact fun hzero => hlast (sub_one_eq_zero_iff.mp hzero)
    · simp only [hnode, htriggers]
      omega
    · rw [hnode, htick, hexpire]
      exact hlate.fire hi hstart hdue

/-- **An `Executes`** keeps the node on its way, and fires it if it has counts left and is
due. -/
theorem Returning.executes (hI : Inv [] s) (hs : Returning event x n i e t s) (hi : 2 ≤ i)
    (hex : s.executes h = .ok s') (hq : ∀ c, P c → ¬c.Touches event) (hh : h.All P) :
    Returning event x n i e t s' ∧
      (s.triggers x < n.toNat → s'.triggers x =
        s.triggers x + if (s.node x).expire ≤ s.tickTime then 1 else 0) := by
  have hq' : ∀ c, P c → ¬c.Touches (s.node x).event := by rwa [hs.node_event]
  have hstart := hs.start_le
  cases hs.course with
  | running hv hp hc hsum hx hlate =>
    by_cases hdue : (s.node x).expire ≤ s.tickTime
    · obtain ⟨hs', htriggers⟩ := hs.fire hI hi hex hq' hh hv hp hc hsum hx hlate hdue
      exact ⟨hs', fun _ => by rw [if_pos hdue, htriggers]⟩
    · have hsp := hI.executes_spared hex hs.lt (fun _ => not_le.mp hdue) (.inr hq') hh
      rw [if_neg hdue, add_zero]
      refine ⟨(hs.wait ?_).of_spared hsp, fun _ => hsp.triggers⟩
      exact .running hv hp hc hsum hx (hlate.wait hstart (not_le.mp hdue))
  | ended hv hsum =>
    refine ⟨?_, fun hlt => absurd hsum hlt.ne⟩
    by_cases hdue : x ∈ contents s.slots ∧ (s.node x).expire ≤ s.tickTime
    · obtain ⟨htick, hnext, hnode, hcb, -⟩ := hI.executes_erased hex hdue.1 hdue.2 hv
      refine ⟨by omega, hs.lt.trans_le hnext, by rw [hnode, hs.node_event],
        by rw [hnode, hs.node_interval], fun ht => by omega, ?_⟩
      refine .ended (by rw [hnode, hv]) ?_
      rw [← count_callbacks, hcb, count_callbacks, hsum]
    · have hsp := hI.executes_spared hex hs.lt
        (fun hx => not_le.mp fun hle => hdue ⟨hx, hle⟩) (.inl hv) hh
      exact (hs.wait (.ended hv hsum)).of_spared hsp

/-- A step that is no `Executes` spares the node. -/
theorem Returning.spared (hI : Inv [] s) (hs : Returning event x n i e t s) {l : LateLabel}
    (hl : l.All fun c => ¬c.Touches event) (hno : ∀ h, l ≠ .label (.executes h))
    (hstep : LateStep s l s') : Spared x s s' := by
  cases hstep with
  | start hint hexp => exact (hI.startLate _ _ hint hexp).2 x hs.lt
  | label hstep =>
    cases hstep with
    | executes hex => exact absurd rfl (hno _)
    | call c =>
      have hq : Quiet (fun c => ¬c.Touches event) s x := .inr fun _ hc => hs.node_event ▸ hc
      exact (hI.agree.effect c).spared_of_quiet hI hs.lt hq hl

/-- **A run keeps the node on its way.** -/
theorem Returning.run (hI : Inv [] s) (hs : Returning event x n i e t s) (hi : 2 ≤ i)
    {ls : List LateLabel} (hrun : Run LateStep s ls s')
    (hls : ∀ l ∈ ls, l.All fun c => ¬c.Touches event) :
    Inv [] s' ∧ Returning event x n i e t s' := by
  refine hrun.preserves (I := fun u => Inv [] u ∧ Returning event x n i e t u)
    (P := fun l => l.All fun c => ¬c.Touches event) ?_ hls ⟨hI, hs⟩
  rintro u l u' ⟨hIu, hu⟩ hl hstep
  refine ⟨hstep.inv hIu, ?_⟩
  by_cases hex : ∃ h, l = .label (.executes h)
  · obtain ⟨h, rfl⟩ := hex
    cases hstep with
    | label hstep =>
      cases hstep with
      | executes hex => exact (hu.executes hIu hi hex (fun _ hc => hc) hl).1
  · exact hu.of_spared (hu.spared hIu hl (fun h hh => hex ⟨h, hh⟩) hstep)

/-- **A late `Start` puts its node on its way.** -/
theorem returning_startLate (hI : Inv [] s) (hm : s.managerMap event = none) {n : Int64}
    (hn : n.toUInt64 ≠ 0) (hi : 2 ≤ i) (hlimit : i ≤ 0xffffffff) (he : e < s.tickTime) :
    (s.startLate event n i e).1 = .returned true ∧
      Returning event s.nextNode n.toUInt64 i e s.tickTime (s.startLate event n i e).2 := by
  obtain ⟨slot, -, hstart⟩ :=
    hI.startLate_of_none n hm hlimit (show e ≤ i + s.tickTime by omega)
  rw [hstart]
  have hzero : s.triggers s.nextNode = 0 := by
    rw [← count_callbacks, hI.callbacks_fresh le_rfl, List.count_nil]
  refine ⟨rfl, le_rfl, Nat.lt_succ_self _, by simp [TimerNode.make], by simp [TimerNode.make],
    fun _ => hzero, ?_⟩
  refine .running (by simp [TimerNode.make]) (by simp [TimerNode.make])
    (by simpa [TimerNode.make] using hn) ?_ (by simp) ?_
  · simp only [Function.update_self, TimerNode.make]
    exact (congrArg (n.toUInt64.toNat + ·) hzero).trans (Nat.add_zero _)
  · simp only [Function.update_self, TimerNode.make]
    exact ⟨by simp, by omega, fun _ => .inl rfl, fun _ => he⟩

/-! ### The theorem -/

/-- **What a late timer does**, in a state after its `Start` at tick `t` for the expiry `e`: only
an `Executes` triggers it, and at most once; the first one does, and from the third tick on
those do that start a whole number of periods after `e`. Each moves on to the next tick, and
returns as long as no timer of period zero is running. -/
structure OnGrid (event : Event) (x : NodeId) (n : UInt64) (i e t : ℤ) (u : TimerManager) :
    Prop where
  first : u.tickTime = t → u.triggers x = 0
  calls : ∀ l u', (l.All fun c => ¬c.Touches event) → (∀ h, l ≠ .label (.executes h)) →
    LateStep u l u' → u'.triggers x = u.triggers x
  executes : ∀ (h : Handlers) (u' : TimerManager), (h.All fun c => ¬c.Touches event) →
    u.executes h = .ok u' → u.triggers x < n.toNat →
      u'.triggers x ≤ u.triggers x + 1 ∧ (u.tickTime = t → u'.triggers x = 1) ∧
        (t + 2 < u.tickTime →
          u'.triggers x = u.triggers x + if i ∣ u.tickTime - e then 1 else 0)
  tick : ∀ (h : Handlers) (u' : TimerManager), u.executes h = .ok u' →
    u'.tickTime = u.tickTime + 1
  returns : ¬u.Divides → ∀ h : Handlers, ∃ u', u.executes h = .ok u'

theorem Returning.onGrid (hI : Inv [] s) (hs : Returning event x n i e t s) (hi : 2 ≤ i) :
    OnGrid event x n i e t s := by
  refine ⟨hs.first, fun l u' hl hno hstep => (hs.spared hI hl hno hstep).triggers, ?_,
    fun h u' hex => hI.executes_tick hex,
    fun hno h => hI.executes_or.resolve_right fun hc => hno hc.2⟩
  intro h u' hh hex hlt
  have hnext := (hs.executes hI hi hex (fun _ hc => hc) hh).2 hlt
  cases hs.course with
  | ended hv hsum => exact absurd hsum hlt.ne
  | running hv hp hc hsum hx hlate =>
    refine ⟨by rw [hnext]; split_ifs <;> omega, fun ht => ?_, fun hk => ?_⟩
    · rw [hnext, hs.first ht, if_pos (hlate.first ht).le]
    · rw [hnext]
      exact congrArg _ (if_congr (hlate.due_iff hk) rfl rfl)

/-- **A late timer returns to its grid.** In every state that runs lead to, late `Start`s
among them, let an event that is not registered be started with a count that is not zero, a
period `i` of at least two within the limit, and an expiry `e` that is past. Then `Start`
succeeds; and in every state of every run after it in which no `Pause`, `Resume` or `Destroy`
of the event is called, as long as the node has been triggered less often than its count says,
the next `Executes` triggers it at the tick of the `Start`, at most once, and from the third
tick after on just when its tick is a whole number of periods after `e`. -/
theorem returns_to_grid {ls : List LateLabel} (hs : Run LateStep init ls s)
    (hm : s.managerMap event = none) {n : Int64} (hn : n.toUInt64 ≠ 0) (hi : 2 ≤ i)
    (hlimit : i ≤ 0xffffffff) (he : e < s.tickTime) :
    (s.startLate event n i e).1 = .returned true ∧
      ∀ (ls : List LateLabel) (u : TimerManager), Run LateStep (s.startLate event n i e).2 ls u →
        (∀ l ∈ ls, l.All fun c => ¬c.Touches event) →
          OnGrid event s.nextNode n.toUInt64 i e s.tickTime u := by
  have hI : Inv [] s := hs.invariant (fun hI hstep => hstep.inv hI) inv_init
  obtain ⟨hret, hreturn⟩ := returning_startLate hI hm hn hi hlimit he
  refine ⟨hret, fun ls u hrun hls => ?_⟩
  have hI₁ := (hI.startLate event n hlimit (show e ≤ i + s.tickTime by omega)).1
  obtain ⟨hIu, hu⟩ := hreturn.run hI₁ hi hrun hls
  exact hu.onGrid hIu hi

/-- A timer of period 2 that is started at tick 0 and inserted at tick 3 is triggered by the next
`Executes`. -/
theorem returns_to_grid_overtaken :
    ∃ s u ls, Run LateStep init ls s ∧ s.tickTime = 3 ∧
      (s.startLate (.given 0) 5 2 2).1 = .returned true ∧
      (s.startLate (.given 0) 5 2 2).2.executes (fun _ _ => []) = .ok u ∧
      u.tickTime = 4 ∧ u.triggers s.nextNode = 1 ∧
      ∀ (ls : List LateLabel) (u : TimerManager),
        Run LateStep (s.startLate (.given 0) 5 2 2).2 ls u →
          (∀ l ∈ ls, l.All fun c => ¬c.Touches (.given 0)) →
            OnGrid (.given 0) s.nextNode (5 : Int64).toUInt64 2 2 3 u := by
  let idle : LateLabel := .label (.executes fun _ _ => [])
  have hrun : ∃ s, Run LateStep init [idle, idle, idle] s ∧ s.tickTime = 3 ∧
      s.managerMap (.given 0) = none ∧ (s.startLate (.given 0) 5 2 2).2.tickTime = 3 ∧
      ∃ u, (s.startLate (.given 0) 5 2 2).2.executes (fun _ _ => []) = .ok u :=
    ⟨_, .cons (.label (.executes rfl)) (.cons (.label (.executes rfl))
      (.cons (.label (.executes rfl)) (.nil _))), rfl, rfl, rfl, _, rfl⟩
  obtain ⟨s, hs, htick, hm, hstart, u, hu⟩ := hrun
  obtain ⟨hret, hgrid⟩ := returns_to_grid (n := 5) (i := 2) hs hm (by decide) (by norm_num)
    (by norm_num) (show 2 < s.tickTime by rw [htick]; norm_num)
  rw [htick] at hgrid
  have hfirst := hgrid [] _ (.nil _) nofun
  have hzero := hfirst.first hstart
  have hfires := hfirst.executes (fun _ _ => []) u (fun _ _ _ hc => absurd hc List.not_mem_nil) hu
    (by rw [hzero]; decide)
  refine ⟨s, u, _, hs, htick, hret, hu, ?_, hfires.2.1 hstart, hgrid⟩
  rw [hfirst.tick _ _ hu, hstart]
  rfl

end TimerManager

end Timer

end MToolkit

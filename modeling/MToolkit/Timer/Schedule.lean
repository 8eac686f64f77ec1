import MToolkit.Timer.CatchUp

/-!
# The periodic schedule

The life of a node that `Start` made with a positive count `n` and period `i` at tick
`t`, when no call flags it: it is triggered in the `Executes` of the ticks `t + i`,
`t + 2i`, …, `t + ni`, stops in the last of them, and leaves the maps one period
later. In between it is in one of three phases
(`MToolkit.Timer.TimerManager.Phase`): running with `k` triggers behind it, stopped
and waiting for the visit that erases it, or gone. Each `Executes` either spares the
node or visits it at the tick the phase says, and only the visit moves the phase on.
-/

namespace MToolkit

namespace Timer

open Buckets Fallible Lts

namespace TimerManager

/-- The callbacks that node `x`, of count `n` and period `i`, makes in the `Executes`
that starts `d` ticks after its `Start`: one at each whole number of periods. -/
def due (x : NodeId) (n i d : ℤ) : List Callback :=
  if i ∣ d ∧ 0 < d ∧ d ≤ n * i then
    .onTrigger x :: if d = n * i then [.onStop x false] else []
  else []

variable {x : NodeId} {n i d : ℤ}

/-- The whole numbers of periods are `i`, `2i`, …, `ni`. -/
theorem whole_iff (hi : 1 ≤ i) :
    i ∣ d ∧ 0 < d ∧ d ≤ n * i ↔ ∃ j, 1 ≤ j ∧ j ≤ n ∧ d = j * i := by
  constructor
  · rintro ⟨⟨j, rfl⟩, hpos, hle⟩
    rw [mul_comm i j] at hpos hle
    exact ⟨j, pos_of_mul_pos_left hpos (by omega), le_of_mul_le_mul_right hle (by omega),
      mul_comm i j⟩
  · rintro ⟨j, hj, hn, rfl⟩
    exact ⟨Dvd.intro_left j rfl, mul_pos (by omega) (by omega),
      mul_le_mul_of_nonneg_right hn (by omega)⟩

/-- Between two periods nothing is due. -/
theorem due_eq_nil {k : ℤ} (hi : 1 ≤ i) (hlo : k = 0 ∧ d ≤ 0 ∨ k * i < d) (hhi : d < (k + 1) * i) :
    due x n i d = [] := by
  rw [due, if_neg]
  rw [whole_iff hi]
  rintro ⟨j, hj, hn, rfl⟩
  have hjk : j < k + 1 := lt_of_mul_lt_mul_right hhi (by omega)
  rcases hlo with ⟨rfl, hle⟩ | hlo
  · have := mul_pos (show 0 < j by omega) (show 0 < i by omega)
    omega
  · have := lt_of_mul_lt_mul_right hlo (by omega)
    omega

/-- After the last period nothing is due. -/
theorem due_eq_nil_of_lt (hi : 1 ≤ i) (h : n * i < d) : due x n i d = [] := by
  rw [due, if_neg]
  rw [whole_iff hi]
  rintro ⟨j, hj, hn, rfl⟩
  exact not_lt.mpr (mul_le_mul_of_nonneg_right hn (by omega)) h

/-- What is due after a whole number of periods. -/
theorem due_mul {k : ℤ} (hi : 1 ≤ i) (hk : 0 ≤ k) (hn : k < n) :
    due x n i ((k + 1) * i) =
      .onTrigger x :: if n - k = 1 then [.onStop x false] else [] := by
  have hlast : (k + 1) * i = n * i ↔ n - k = 1 := by
    rw [mul_left_inj' (by omega)]
    omega
  rw [due, if_pos ((whole_iff hi).mpr ⟨k + 1, by omega, by omega, rfl⟩)]
  simp only [hlast]

/-- All the callbacks due in the first `d` ticks. -/
def history (x : NodeId) (n i : ℤ) (d : ℕ) : List Callback :=
  (List.range d).flatMap fun k => due x n i k

theorem history_succ (d : ℕ) : history x n i (d + 1) = history x n i d ++ due x n i d := by
  simp [history, List.range_succ]

/-- One tick later, `t` being the tick of the `Start`. -/
theorem history_tick {t tick : ℤ} (h : t ≤ tick) :
    history x n i (tick + 1 - t).toNat =
      history x n i (tick - t).toNat ++ due x n i (tick - t) := by
  have hnat : (tick + 1 - t).toNat = (tick - t).toNat + 1 := by omega
  rw [hnat, history_succ, Int.toNat_of_nonneg (by omega)]

/-! ### The three phases -/

/-- Where in its life node `x` is, started for the event at tick `t` with count `n` and
period `i`. -/
inductive Phase (event : Event) (x : NodeId) (t n i : ℤ) (s : TimerManager) : Prop
  /-- It has been triggered `k` times, fewer than `n`. -/
  | running (k : ℤ) : 0 ≤ k → k < n → (k = 0 ∧ s.tickTime ≤ t ∨ t + k * i < s.tickTime) →
      s.tickTime ≤ t + (k + 1) * i → (s.node x).isValid = true → (s.node x).isPause = false →
      ((s.node x).count.toNat : ℤ) = n - k → (s.node x).expire = t + (k + 1) * i →
      x ∈ contents s.slots → s.managerMap event = some x → Phase event x t n i s
  /-- It has been triggered `n` times and waits to be erased. -/
  | stopped : t + n * i < s.tickTime → s.tickTime ≤ t + (n + 1) * i →
      (s.node x).isValid = false → (s.node x).expire = t + (n + 1) * i →
      x ∈ contents s.slots → s.managerMap event = some x → Phase event x t n i s
  /-- It has been erased. -/
  | gone : t + (n + 1) * i < s.tickTime → (s.node x).isValid = false →
      x ∉ contents s.slots → (∀ event', s.managerMap event' ≠ some x) → Phase event x t n i s

/-- **The node is on schedule.** -/
structure OnSchedule (event : Event) (x : NodeId) (t n i : ℤ) (s : TimerManager) : Prop where
  start_le : t ≤ s.tickTime
  lt : x < s.nextNode
  node_event : (s.node x).event = event
  node_interval : (s.node x).interval = i
  callbacks : s.callbacks x = history x n i (s.tickTime - t).toNat
  phase : Phase event x t n i s

variable {s s' : TimerManager} {event : Event} {t : ℤ} {P : Call → Prop} {h : Handlers}

theorem Phase.of_spared (hs : Phase event x t n i s) (hsp : Spared x s s') :
    Phase event x t n i s' := by
  have hm := hsp.registered
  cases hs with
  | running k h0 hkn hlo hhi hv hp hc he hx hreg =>
    refine .running k h0 hkn ?_ ?_ ?_ ?_ ?_ ?_ (hsp.slots.mpr hx) ((hm event).mpr hreg)
    all_goals simpa only [hsp.tickTime, hsp.node]
  | stopped hlo hhi hv he hx hreg =>
    refine .stopped ?_ ?_ ?_ ?_ (hsp.slots.mpr hx) ((hm event).mpr hreg)
    all_goals simpa only [hsp.tickTime, hsp.node]
  | gone hlo hv hx hreg =>
    refine .gone ?_ ?_ (fun hc => hx (hsp.slots.mp hc))
      fun event' hc => hreg event' ((hm event').mp hc)
    all_goals simpa only [hsp.tickTime, hsp.node]

/-- What spares a node keeps it on schedule. -/
theorem OnSchedule.of_spared (hs : OnSchedule event x t n i s) (hsp : Spared x s s') :
    OnSchedule event x t n i s' where
  start_le := hsp.tickTime ▸ hs.start_le
  lt := hs.lt.trans_le hsp.nextNode
  node_event := hsp.node ▸ hs.node_event
  node_interval := hsp.node ▸ hs.node_interval
  callbacks := by rw [hsp.callbacks, hsp.tickTime, hs.callbacks]
  phase := hs.phase.of_spared hsp

/-- So does the clock, when nothing is due and the phase lasts. -/
theorem OnSchedule.wait (hs : OnSchedule event x t n i s) (hdue : due x n i (s.tickTime - t) = [])
    (hphase : Phase event x t n i { s with tickTime := s.tickTime + 1 }) :
    OnSchedule event x t n i { s with tickTime := s.tickTime + 1 } where
  start_le := hs.start_le.trans (Int.le_add_one le_rfl)
  lt := hs.lt
  node_event := hs.node_event
  node_interval := hs.node_interval
  callbacks := by
    rw [history_tick hs.start_le, hdue, List.append_nil]
    exact hs.callbacks
  phase := hphase

/-- At its tick **the node is triggered**, and stops if this was its last count. -/
theorem OnSchedule.fire (hI : Inv [] s) (hs : OnSchedule event x t n i s) (hi : 1 ≤ i)
    (hex : s.executes h = .ok s') (hq : ∀ c, P c → ¬c.Touches (s.node x).event) (hh : h.All P)
    {k : ℤ} (h0 : 0 ≤ k) (hkn : k < n) (hnow : s.tickTime = t + (k + 1) * i)
    (hv : (s.node x).isValid = true) (hp : (s.node x).isPause = false)
    (hc : ((s.node x).count.toNat : ℤ) = n - k) (he : (s.node x).expire = t + (k + 1) * i)
    (hx : x ∈ contents s.slots) (hreg : s.managerMap event = some x) :
    OnSchedule event x t n i s' := by
  have hstart := hs.start_le
  have hcount : (s.node x).count ≠ 0 := by
    intro hzero
    simp only [hzero, UInt64.toNat_zero] at hc
    omega
  obtain ⟨htick, hnext, hnode, hcb, hin, hreg'⟩ := hI.executes_triggered hex hx (by omega) hv hp
    hcount (by rwa [hs.node_interval]) hq hh
  have hlast : (s.node x).count = 1 ↔ n - k = 1 := by
    rw [← hc, ← UInt64.toNat_inj, UInt64.toNat_one]
    omega
  have hexp : (s'.node x).expire = t + (k + 1 + 1) * i := by
    rw [hnode, he, hs.node_interval]
    ring
  refine ⟨by omega, hs.lt.trans_le hnext, by rw [hnode, hs.node_event],
    by rw [hnode, hs.node_interval], ?_, ?_⟩
  · rw [hcb, hs.callbacks, htick, history_tick hs.start_le,
      show s.tickTime - t = (k + 1) * i by omega, due_mul hi h0 hkn]
    simp only [hlast]
  · by_cases hend : n - k = 1
    · have hn : k + 1 = n := by omega
      rw [hn] at hnow hexp
      have hperiod : (n + 1) * i = n * i + i := by ring
      refine .stopped (by omega) (by omega) ?_ hexp hin ((hreg' event).mpr hreg)
      rw [hnode]
      simp [hlast.mpr hend]
    · have hperiod : (k + 1 + 1) * i = (k + 1) * i + i := by ring
      refine .running (k + 1) (by omega) (by omega) (.inr (by omega)) (by omega) ?_ ?_ ?_ hexp
        hin ((hreg' event).mpr hreg)
      · rw [hnode]
        simpa using fun hc1 => hend (hlast.mp hc1)
      · rw [hnode, hp]
      · have hsub := toNat_sub_one hcount
        simp only [hnode]
        omega

/-- **An `Executes` keeps a node on schedule.** -/
theorem OnSchedule.executes (hI : Inv [] s) (hs : OnSchedule event x t n i s) (hi : 1 ≤ i)
    (hex : s.executes h = .ok s') (hq : ∀ c, P c → ¬c.Touches event) (hh : h.All P) :
    OnSchedule event x t n i s' := by
  have hq' : ∀ c, P c → ¬c.Touches (s.node x).event := by rwa [hs.node_event]
  have hquiet : Quiet P s x := .inr hq'
  have hstart := hs.start_le
  cases hs.phase with
  | running k h0 hkn hlo hhi hv hp hc he hx hreg =>
    by_cases hlt : s.tickTime < (s.node x).expire
    -- not due yet: nothing happens to the node
    · have hsp := hI.executes_spared hex hs.lt (fun _ => hlt) hquiet hh
      refine (hs.wait (due_eq_nil (k := k) hi (by omega) (by omega)) ?_).of_spared hsp
      have hpast : t + k * i < s.tickTime + 1 := by
        rcases hlo with ⟨rfl, -⟩ | hlo <;> omega
      exact .running k h0 hkn (.inr hpast) (by simp only; omega) hv hp hc he hx hreg
    · exact hs.fire hI hi hex hq' hh h0 hkn (by omega) hv hp hc he hx hreg
  | stopped hlo hhi hv he hx hreg =>
    have hnone : due x n i (s.tickTime - t) = [] := due_eq_nil_of_lt hi (by omega)
    by_cases hlt : s.tickTime < (s.node x).expire
    · have hsp := hI.executes_spared hex hs.lt (fun _ => hlt) hquiet hh
      refine (hs.wait hnone ?_).of_spared hsp
      exact .stopped (by simp only; omega) (by simp only; omega) hv he hx hreg
    · -- the node is due: it is erased
      obtain ⟨htick, hnext, hnode, hcb, hout, hgone⟩ :=
        hI.executes_erased hex hx (not_lt.mp hlt) hv
      refine ⟨by rw [htick]; exact hs.start_le.trans (Int.le_add_one le_rfl), hs.lt.trans_le hnext,
        hnode ▸ hs.node_event, hnode ▸ hs.node_interval, ?_,
        .gone (by omega) (hnode ▸ hv) hout hgone⟩
      rw [hcb, hs.callbacks, htick, history_tick hs.start_le, hnone, List.append_nil]
  | gone hlo hv hx hreg =>
    have hsp := hI.executes_spared hex hs.lt (fun hc => absurd hc hx) hquiet hh
    have hnone : due x n i (s.tickTime - t) = [] :=
      due_eq_nil_of_lt hi (by nlinarith)
    refine (hs.wait hnone ?_).of_spared hsp
    exact .gone (by simp only; omega) hv hx hreg

/-- **A run keeps a node on schedule**, as long as no call flags it. -/
theorem OnSchedule.run (hI : Inv [] s) (hs : OnSchedule event x t n i s) (hi : 1 ≤ i)
    {ls : List Label} (hrun : Run Step s ls s')
    (hls : ∀ l ∈ ls, l.All fun c => ¬c.Touches event) :
    Inv [] s' ∧ OnSchedule event x t n i s' := by
  refine hI.preserves_run hrun hls ?_ ?_ hs
  · intro u c u' hc hIu hu heff
    have hq : Quiet (fun c => ¬c.Touches event) u x := .inr fun _ hc => hu.node_event ▸ hc
    exact hu.of_spared (heff.spared_of_quiet hIu hu.lt hq hc)
  · exact fun hh hIu hu hex => hu.executes hIu hi hex (fun _ hc => hc) hh

/-- The conversion of a positive count keeps its value. -/
theorem toNat_toUInt64 {n : Int64} (hn : 1 ≤ n.toInt) : (n.toUInt64.toNat : ℤ) = n.toInt := by
  have hcond := BitVec.toInt_eq_toNat_cond n.toBitVec
  have hlt := n.toBitVec.isLt
  rw [Int64.toInt] at *
  change ((n.toBitVec.toNat : ℕ) : ℤ) = _
  split_ifs at hcond <;> omega

/-- **`Start` puts its node on schedule.** -/
theorem onSchedule_start (hI : Inv [] s) (hm : s.managerMap event = none) {n : Int64}
    (hn : 1 ≤ n.toInt) (hi : 1 ≤ i) (hlimit : i ≤ 0xffffffff) :
    (s.start event n i).1 = .returned true ∧
      OnSchedule event s.nextNode s.tickTime n.toInt i (s.start event n i).2 := by
  obtain ⟨slot, -, hstart⟩ := hI.start_of_none n hm hlimit
  rw [hstart]
  refine ⟨rfl, le_rfl, Nat.lt_succ_self _, by simp [TimerNode.make], by simp [TimerNode.make],
    ?_, ?_⟩
  · rw [sub_self]
    exact hI.callbacks_fresh le_rfl
  · refine .running 0 le_rfl (by omega) (.inl ⟨rfl, le_rfl⟩) ?_ ?_ ?_ ?_ ?_ (by simp) (by simp)
    · simp only
      omega
    · simp [TimerNode.make]
    · simp [TimerNode.make]
    · simpa [TimerNode.make] using toNat_toUInt64 hn
    · simp only [Function.update_self, TimerNode.make]
      omega

/-! ### The theorem -/

/-- **What a periodic timer promises**, in a state after its `Start` at tick `t`: its
callbacks so far are those due so far; the next `Executes` makes those due at its tick and
moves on to the next, and it does return as long as no timer of period zero is running; and
up to its last period it is registered and `Start` refuses its event. After that it is
not. -/
structure Periodic (event : Event) (x : NodeId) (t n i : ℤ) (u : TimerManager) : Prop where
  callbacks : u.callbacks x = history x n i (u.tickTime - t).toNat
  next : ∀ (h : Handlers) (u' : TimerManager), h.All (fun c => ¬c.Touches event) →
    u.executes h = .ok u' →
      u'.tickTime = u.tickTime + 1 ∧
        u'.callbacks x = u.callbacks x ++ due x n i (u.tickTime - t)
  returns : ¬u.Divides → ∀ h : Handlers, ∃ u', u.executes h = .ok u'
  held : u.tickTime ≤ t + (n + 1) * i →
    u.managerMap event = some x ∧ u.normalMap event = some x ∧
      ∀ count interval, u.start event count interval = (.returned false, u)
  released : t + (n + 1) * i < u.tickTime →
    u.managerMap event ≠ some x ∧ u.normalMap event ≠ some x

theorem OnSchedule.periodic (hI : Inv [] s) (hs : OnSchedule event x t n i s) (hi : 1 ≤ i) :
    Periodic event x t n i s := by
  refine ⟨hs.callbacks, fun h u' hh hex => ⟨hI.executes_tick hex, ?_⟩, fun hno h => ?_,
    fun hle => ?_, fun hlt => ?_⟩
  · have hu' := hs.executes hI hi hex (fun _ hc => hc) hh
    rw [hu'.callbacks, hI.executes_tick hex, history_tick hs.start_le, hs.callbacks]
  · exact hI.executes_or.resolve_right fun hc => hno hc.2
  · have hm : s.managerMap event = some x := by
      cases hs.phase with
      | running k h0 hkn hlo hhi hv hp hc he hx hreg => exact hreg
      | stopped hlo hhi hv he hx hreg => exact hreg
      | gone hlo => omega
    exact ⟨hm, by rw [hI.agree.normal, hm], fun _ _ => start_of_registered hm⟩
  · have hm : s.managerMap event ≠ some x := by
      cases hs.phase with
      | running k h0 hkn hlo hhi hv hp hc he hx hreg =>
        have hle : (k + 1) * i ≤ (n + 1) * i := mul_le_mul_of_nonneg_right (by omega) (by omega)
        omega
      | stopped hlo hhi hv he hx hreg => omega
      | gone hlo hv hx hreg => exact hreg event
    exact ⟨hm, by rwa [hI.agree.normal]⟩

/-- **Periodic schedule.** In every state that calls lead to, let an event of the caller
that is not registered be started with a count `n` of at least one and a period `i`
within the limit. Then `Start` succeeds; and over every run in which no `Pause`, `Resume`
or `Destroy` of the event is called, from outside or from an `OnTrigger`, the new node
keeps the promise of a periodic timer: it is triggered in the `Executes` of the ticks
`t + i`, …, `t + ni` and in no other, stops in the last of these, and is registered up to
the `Executes` of tick `t + (n + 1)i`. If the run does not start the event anew, the event
is free from then on. -/
theorem periodic_schedule (hs : Reachable P s) {id : ℕ} (hm : s.managerMap (.given id) = none)
    {n : Int64} (hn : 1 ≤ n.toInt) (hi : 1 ≤ i) (hlimit : i ≤ 0xffffffff) :
    (s.start (.given id) n i).1 = .returned true ∧
      ∀ (ls : List Label) (u : TimerManager), Run Step (s.start (.given id) n i).2 ls u →
        (∀ l ∈ ls, l.All fun c => ¬c.Touches (.given id)) →
          Periodic (.given id) s.nextNode s.tickTime n.toInt i u ∧
            ((∀ l ∈ ls, l.All fun c => ¬c.Begins (.given id)) →
              s.tickTime + (n.toInt + 1) * i < u.tickTime → Free (.given id) u) := by
  have hI := hs.inv
  obtain ⟨hret, hon⟩ := onSchedule_start hI hm hn hi hlimit
  have hI₁ : Inv [] (s.start (.given id) n i).2 :=
    (hI.agree.effect (.start (.given id) n i)).inv hI
  refine ⟨hret, fun ls u hrun hls => ?_⟩
  obtain ⟨hIu, hu⟩ := hon.run hI₁ hi hrun hls
  refine ⟨hu.periodic hIu hi, fun hnew hlt => hIu.free (Option.eq_none_iff_forall_ne_some.mpr ?_)⟩
  -- what is registered now was registered after the `Start`, so it would be its node
  intro y hy
  have hy₁ := hI₁.run_noNew hrun hnew y hy
  obtain ⟨slot, -, hstart⟩ := hI.start_of_none n hm hlimit
  rw [hstart] at hy₁
  obtain rfl : s.nextNode = y := by simpa using hy₁
  exact ((hu.periodic hIu hi).released hlt).1 hy

/-- Two triggers, three ticks apart, on a new manager: ten ticks later it has seen both of them and
the stop, and the event is free again. -/
theorem periodic_schedule_init :
    (init.start (.given 0) 2 3).1 = .returned true ∧
      ∃ u, Run Step (init.start (.given 0) 2 3).2 (List.replicate 10 (.executes idle)) u ∧
        u.callbacks 0 = [.onTrigger 0, .onTrigger 0, .onStop 0 false] ∧ Free (.given 0) u := by
  have hidle : ∀ {P : Call → Prop}, ∀ l ∈ List.replicate 10 (Label.executes idle), l.All P := by
    intro P l hl
    rw [List.eq_of_mem_replicate hl]
    exact idle_all
  have hstarted : Reachable Call.Positive (init.start (.given 0) 2 3).2 :=
    reachable_init.call (c := .start (.given 0) 2 3) (by simp [Call.Positive])
  obtain ⟨u, hrun, htick⟩ := exists_run_idle hstarted 10
  have htick : u.tickTime = 10 := htick
  have hnone : init.managerMap (.given 0) = none := rfl
  obtain ⟨hret, hpromise⟩ := periodic_schedule (P := fun _ => True) (n := 2) (i := 3)
    reachable_init hnone (by decide) (by norm_num) (by norm_num)
  obtain ⟨hperiodic, hfree⟩ := hpromise _ u hrun hidle
  refine ⟨hret, u, hrun, ?_, hfree hidle ?_⟩
  · refine hperiodic.callbacks.trans ?_
    rw [htick]
    rfl
  · rw [htick]
    decide

example : history 7 2 3 8 = [.onTrigger 7, .onTrigger 7, .onStop 7 false] := by decide

end TimerManager

end Timer

end MToolkit

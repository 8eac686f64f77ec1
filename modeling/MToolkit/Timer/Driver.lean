import MToolkit.Timer.Halt
import MToolkit.Timer.Schedule
import MToolkit.Timer.Timely

/-!
# The driver thread

`TimerManager::DriverThread` sleeps and calls `Update`, which reads the clock and makes one
`Executes` for every millisecond since the last reading. Calls of other threads come in between, and
`Stop` ends the thread at the next test of its loop.

No millisecond is lost or counted twice (`TimerDriver.keeps_time`), so that the schedule in ticks of
a manager is one in milliseconds: a periodic timer has been triggered as often as its period has
passed before the last reading of the clock (`TimerDriver.wall_clock`). After `Stop` the thread can
always come to its end (`TimerDriver.ends_after_stop`), which the destructor waits for.
-/

namespace MToolkit

namespace Timer

open Lts TimerManager

/-- Where the thread is. -/
inductive DriverPc where
  /-- It is about to test `_running`. -/
  | test
  /-- It sleeps. -/
  | asleep
  /-- It is in the loop of `Update`. -/
  | updating
  /-- It has ended. -/
  | ended
  deriving DecidableEq

/-- A manager with its thread. -/
structure TimerDriver where
  manager : TimerManager
  /-- `_lastTime`, in milliseconds; its 64 bits. -/
  lastTime : UInt64
  /-- `_running` -/
  running : Bool
  pc : DriverPc
  /-- The turns that the loop of `Update` has still to take. -/
  ticks : ℕ

namespace TimerDriver

/-- The constructor, at a reading of the clock. -/
def construct (now : UInt64) : TimerDriver where
  manager := .init
  lastTime := now
  running := true
  pc := .test
  ticks := 0

/-- A step of the thread, or a call of another one. -/
inductive Label where
  | call (c : Call) : Label
  | stop : Label
  /-- `_running` is tested. -/
  | loop : Label
  /-- `Update` reads the clock. -/
  | update (now : UInt64) : Label
  | executes (h : Handlers) : Label
  /-- `Update` returns. -/
  | done : Label

/-- The steps. The clock is steady: it does not go back. -/
inductive Step : TimerDriver → Label → TimerDriver → Prop
  | call (d : TimerDriver) (c : Call) : Step d (.call c) { d with manager := d.manager.call c }
  | stop (d : TimerDriver) : Step d .stop { d with running := false }
  | loop {d : TimerDriver} (hpc : d.pc = .test) :
      Step d .loop { d with pc := if d.running then .asleep else .ended }
  | update {d : TimerDriver} {now : UInt64} (hpc : d.pc = .asleep) (hnow : d.lastTime ≤ now) :
      Step d (.update now)
        { d with lastTime := now, ticks := (now - d.lastTime).toNat, pc := .updating }
  | executes {d : TimerDriver} {h : Handlers} {s : TimerManager} {n : ℕ} (hpc : d.pc = .updating)
      (hticks : d.ticks = n + 1) (hex : d.manager.executes h = .ok s) :
      Step d (.executes h) { d with manager := s, ticks := n }
  | done {d : TimerDriver} (hpc : d.pc = .updating) (hticks : d.ticks = 0) :
      Step d .done { d with pc := .test }

/-- Every call that a step makes is admissible. -/
def Label.All (P : Call → Prop) : Label → Prop
  | .call c => P c
  | .executes h => h.All P
  | _ => True

/-- What a step does with the manager. -/
def Label.toManager : Label → List TimerManager.Label
  | .call c => [.call c]
  | .executes h => [.executes h]
  | _ => []

variable {d u : TimerDriver} {l : Label} {ls : List Label} {P : Call → Prop} {c : UInt64}

/-! ### The run of the manager -/

/-- **The manager of a run runs.** -/
theorem run_manager (hrun : Run Step d ls u) :
    Run TimerManager.Step d.manager (ls.flatMap Label.toManager) u.manager := by
  have hsim : ∀ {d : TimerDriver} {l : Label} {u : TimerDriver} {s : TimerManager},
      s = d.manager → Step d l u →
        ∃ s', Run TimerManager.Step s l.toManager s' ∧ s' = u.manager := by
    rintro d l u s rfl hstep
    cases hstep with
    | call c => exact ⟨_, .single (.call c), rfl⟩
    | stop => exact ⟨_, .nil _, rfl⟩
    | loop => exact ⟨_, .nil _, rfl⟩
    | update => exact ⟨_, .nil _, rfl⟩
    | executes _ _ hex => exact ⟨_, .single (.executes hex), rfl⟩
    | done => exact ⟨_, .nil _, rfl⟩
  obtain ⟨s, hs, rfl⟩ := hrun.simulate (R := fun d s => s = d.manager) hsim rfl
  exact hs

theorem Step.inv (hstep : Step d l u) (hI : Inv [] d.manager) : Inv [] u.manager :=
  (hI.preserves_run (run_manager (.single hstep)) (fun l _ => l.all_true) (I := fun _ => True)
    (fun _ _ _ _ => trivial) (fun _ _ _ _ => trivial) trivial).1

/-- Its calls are those of the run. -/
theorem all_toManager (hls : ∀ l ∈ ls, l.All P) :
    ∀ l ∈ ls.flatMap Label.toManager, l.All P := by
  intro l hl
  obtain ⟨k, hk, hlk⟩ := List.mem_flatMap.mp hl
  have hall := hls k hk
  cases k <;> simp only [Label.toManager, List.mem_singleton, List.not_mem_nil] at hlk
  · subst hlk
    exact hall
  · subst hlk
    exact hall

/-! ### The clock -/

/-- **The clock of the manager** is that of the thread, since the construction at `c`. -/
structure Clocked (c : UInt64) (d : TimerDriver) : Prop where
  le : c.toNat ≤ d.lastTime.toNat
  nonneg : 0 ≤ d.manager.tickTime
  tickTime : d.manager.tickTime + d.ticks = d.lastTime.toNat - c.toNat
  idle : d.pc ≠ .updating → d.ticks = 0

theorem clocked_construct (c : UInt64) : Clocked c (construct c) where
  le := le_rfl
  nonneg := le_rfl
  tickTime := by simp [construct, TimerManager.init]
  idle _ := rfl

theorem Step.clocked (hstep : Step d l u) (hI : Inv [] d.manager) (hd : Clocked c d) :
    Clocked c u := by
  obtain ⟨hle, hnonneg, htick, hidle⟩ := hd
  cases hstep with
  | call e =>
    have hsame : (d.manager.call e).tickTime = d.manager.tickTime :=
      (hI.agree.effect e).frame.tickTime
    exact ⟨hle, hsame ▸ hnonneg, by rw [← htick, ← hsame], hidle⟩
  | stop => exact ⟨hle, hnonneg, htick, hidle⟩
  | loop hpc => exact ⟨hle, hnonneg, htick, fun _ => hidle (by rw [hpc]; nofun)⟩
  | @update now hpc hnow =>
    have hzero : d.ticks = 0 := hidle (by rw [hpc]; nofun)
    have hsub : (now - d.lastTime).toNat = now.toNat - d.lastTime.toNat :=
      UInt64.toNat_sub_of_le _ _ hnow
    have hnow' := UInt64.le_iff_toNat_le.mp hnow
    refine ⟨hle.trans hnow', hnonneg, ?_, fun hno => absurd rfl hno⟩
    simp only [hsub]
    omega
  | executes hpc hticks hex =>
    have hone := hI.executes_tick hex
    exact ⟨hle, by simp only; omega, by simp only; omega, fun hno => absurd hpc hno⟩
  | done hpc hticks => exact ⟨hle, hnonneg, htick, fun _ => hticks⟩

/-- A state that admissible steps lead to, after a construction at `c`. -/
def Reachable (c : UInt64) (P : Call → Prop) (d : TimerDriver) : Prop :=
  ∃ ls : List Label, (∀ l ∈ ls, l.All P) ∧ Run Step (construct c) ls d

theorem Reachable.manager (hd : Reachable c P d) : TimerManager.Reachable P d.manager := by
  obtain ⟨ls, hls, hrun⟩ := hd
  exact ⟨ls.flatMap Label.toManager, all_toManager hls, run_manager hrun⟩

theorem Reachable.run (hd : Reachable c P d) (hls : ∀ l ∈ ls, l.All P) (hrun : Run Step d ls u) :
    Reachable c P u := by
  obtain ⟨ms, hms, hrun'⟩ := hd
  exact ⟨ms ++ ls, List.forall_mem_append.mpr ⟨hms, hls⟩, hrun'.append hrun⟩

/-- A run keeps the clocks together. -/
theorem Clocked.run (hd : Clocked c d) (hI : Inv [] d.manager) (hrun : Run Step d ls u) :
    Clocked c u := by
  induction hrun with
  | nil => exact hd
  | cons hstep _ ih =>
    exact ih (hstep.clocked hI hd) (hstep.inv hI)

theorem Reachable.clocked (hd : Reachable c P d) : Clocked c d := by
  obtain ⟨ls, -, hrun⟩ := hd
  exact (clocked_construct c).run inv_init hrun

/-- **The driver keeps time**: whatever calls with positive intervals are made, by other threads or
by handlers, the ticks of the manager and those still to be made are the milliseconds from the
construction to the last reading of the clock; and the loop of `Update` is never stuck before the
last of them. -/
theorem keeps_time (hd : Reachable c Call.Positive d) :
    d.manager.tickTime + d.ticks = d.lastTime.toNat - c.toNat ∧
      (d.pc ≠ .updating → d.manager.tickTime = d.lastTime.toNat - c.toNat) ∧
      ∀ h : Handlers, h.All Call.Positive → d.pc = .updating → d.ticks ≠ 0 →
        ∃ u, Step d (.executes h) u := by
  obtain ⟨-, -, htick, hidle⟩ := hd.clocked
  refine ⟨htick, fun hpc => ?_, fun h hh hpc hticks => ?_⟩
  · have hzero := hidle hpc
    omega
  · obtain ⟨s, hs, -⟩ := hd.manager.timely.executes hd.manager.inv hh
    obtain ⟨n, hn⟩ := Nat.exists_eq_succ_of_ne_zero hticks
    exact ⟨_, .executes hpc hn hs⟩

/-- Three milliseconds after the construction, three ticks have still to be made, and the first of
them can be. -/
theorem keeps_time_update :
    ∃ d : TimerDriver, d.ticks = 3 ∧ d.manager.tickTime + d.ticks = 3 ∧
      ∃ u, Step d (.executes fun _ _ => []) u := by
  have hd : Reachable 1000 Call.Positive
      { construct 1000 with lastTime := 1003, ticks := 3, pc := .updating } :=
    ⟨[.loop, .update 1003], by simp [Label.All],
      .cons (.loop rfl) (.single (.update rfl (by decide)))⟩
  obtain ⟨htick, -, hstep⟩ := keeps_time hd
  exact ⟨_, rfl, htick, hstep (fun _ _ => []) (fun _ _ _ h => absurd h List.not_mem_nil) rfl nofun⟩

/-- All ticks of an update can be made, whatever the handlers do. -/
theorem Reachable.exists_run_ticks (hd : Reachable c Call.Positive d) (hpc : d.pc = .updating)
    {n : ℕ} (hn : d.ticks = n) {h : Handlers} (hh : h.All Call.Positive) :
    ∃ u, Run Step d (List.replicate n (.executes h)) u ∧ u.pc = .updating ∧
      u.lastTime = d.lastTime ∧ u.ticks = 0 ∧ u.running = d.running := by
  induction n generalizing d with
  | zero => exact ⟨d, .nil d, hpc, rfl, hn, rfl⟩
  | succ n ih =>
    obtain ⟨s, hs, -⟩ := hd.manager.timely.executes hd.manager.inv hh
    have hstep : Step d (.executes h) { d with manager := s, ticks := n } := .executes hpc hn hs
    have hall : ∀ l ∈ [Label.executes h], l.All Call.Positive := List.forall_mem_singleton.mpr hh
    have hnext := hd.run hall (.single hstep)
    obtain ⟨u, hrun, hu⟩ := ih hnext hpc rfl
    exact ⟨u, .cons hstep hrun, hu⟩

/-- What the thread does in a turn of its loop, with `k` ticks. -/
def turn (now : UInt64) (k : ℕ) : List Label :=
  [.loop, .update now] ++ List.replicate k (.executes idle) ++ [.done]

theorem turn_all (now : UInt64) (k : ℕ) : ∀ l ∈ turn now k, l.All P := by
  intro l hl
  simp only [turn, List.mem_append, List.mem_cons, List.not_mem_nil, List.mem_replicate] at hl
  rcases hl with ((rfl | rfl | h) | ⟨-, rfl⟩) | rfl | h
  · trivial
  · trivial
  · exact h.elim
  · exact idle_all
  · trivial
  · exact h.elim

/-- **A turn of the loop** can be taken: the thread wakes up, and `Update` makes all ticks. -/
theorem Reachable.exists_run_update (hd : Reachable c Call.Positive d) (hpc : d.pc = .test)
    (hrunning : d.running = true) {now : UInt64} (hnow : d.lastTime ≤ now) :
    ∃ u, Run Step d (turn now (now - d.lastTime).toNat) u ∧ u.lastTime = now ∧ u.ticks = 0 := by
  have hloop : Step d .loop { d with pc := .asleep } := by
    have hstep := Step.loop hpc
    rwa [if_pos hrunning] at hstep
  have hupdate : Step { d with pc := .asleep } (.update now) { d with
      lastTime := now, ticks := (now - d.lastTime).toNat, pc := .updating } := .update rfl hnow
  have hread := Run.cons hloop (.single hupdate)
  obtain ⟨u, hrun, hupdating, hlast, hticks, -⟩ :=
    (hd.run (by simp [Label.All]) hread).exists_run_ticks rfl rfl idle_all
  exact ⟨_, (hread.append hrun).snoc (.done hupdating hticks), hlast, hticks⟩

/-! ### The end of the thread -/

/-- The step reads the clock. -/
def Label.isUpdate : Label → Bool
  | .update _ => true
  | _ => false

/-- The step is a tick. -/
def Label.isExecutes : Label → Bool
  | .executes _ => true
  | _ => false

/-- A step that the thread takes, with these handlers. -/
def Label.Own (h : Handlers) : Label → Prop
  | .loop => True
  | .update _ => True
  | .executes h' => h' = h
  | .done => True
  | _ => False

/-- **After `Stop`** the clock is read at most once more, and only by a thread that has been asleep
then. -/
theorem updates_after_stop (hrun : Run Step d ls u) (hstop : d.running = false) :
    ls.countP Label.isUpdate ≤ if d.pc = .asleep then 1 else 0 := by
  induction hrun with
  | nil => exact Nat.zero_le _
  | @cons d m u l ls hstep _ ih =>
    rw [List.countP_cons]
    cases hstep with
    | call | executes => exact ih hstop
    | stop => exact ih rfl
    | loop hpc =>
      refine (ih hstop).trans ?_
      rw [hstop]
      exact Nat.zero_le _
    | update hpc =>
      rw [if_pos hpc]
      exact Nat.add_le_add_right (ih hstop) 1
    | done hpc => exact (ih hstop).trans (Nat.zero_le _)

/-- **The ticks of a run** are those that were left and one for each millisecond that the clock has
gone on, but for those that are left then. -/
theorem Clocked.ticks (hd : Clocked c d) (hI : Inv [] d.manager) (hrun : Run Step d ls u) :
    ls.countP Label.isExecutes + u.ticks + d.lastTime.toNat = d.ticks + u.lastTime.toNat := by
  induction hrun with
  | nil => simp
  | @cons d m u l ls hstep hrest ih =>
    have hrun' := ih (hstep.clocked hI hd) (hstep.inv hI)
    rw [List.countP_cons]
    cases hstep with
    | call | stop | loop => exact hrun'
    | @update now hpc hnow =>
      have hzero : d.ticks = 0 := hd.idle (by rw [hpc]; nofun)
      have hnow' := UInt64.le_iff_toNat_le.mp hnow
      simp only [UInt64.toNat_sub_of_le _ _ hnow] at hrun'
      simp only [Label.isExecutes, Bool.false_eq_true, if_false]
      omega
    | executes hpc hticks =>
      simp only at hrun'
      simp only [Label.isExecutes, if_true]
      omega
    | done => exact hrun'

/-- `_running` is not set again. -/
theorem running_run (hrun : Run Step d ls u) (hstop : d.running = false) : u.running = false := by
  induction hrun with
  | nil => exact hstop
  | cons hstep _ ih =>
    cases hstep with
    | call | loop | update | executes | done => exact ih hstop
    | stop => exact ih rfl

/-- The thread **ends** at its next test, -/
theorem exists_run_of_test (hpc : d.pc = .test) (hstop : d.running = false) {h : Handlers} :
    ∃ (ls : List Label) (u : TimerDriver),
      (∀ l ∈ ls, l.Own h) ∧ Run Step d ls u ∧ u.pc = .ended :=
  ⟨[.loop], _, List.forall_mem_singleton.mpr trivial, .single (.loop hpc), by simp [hstop]⟩

/-- after the ticks of its update. -/
theorem Reachable.exists_run_of_updating (hd : Reachable c Call.Positive d)
    (hpc : d.pc = .updating) (hstop : d.running = false) {h : Handlers}
    (hh : h.All Call.Positive) :
    ∃ (ls : List Label) (u : TimerDriver),
      (∀ l ∈ ls, l.Own h) ∧ Run Step d ls u ∧ u.pc = .ended := by
  obtain ⟨m, hm, hupdating, -, hticks, hrunning⟩ := hd.exists_run_ticks hpc rfl hh
  obtain ⟨ls, u, hls, hu, hended⟩ := exists_run_of_test (d := { m with pc := .test }) rfl
    (hrunning.trans hstop) (h := h)
  refine ⟨_, u, ?_, hm.append (.cons (.done hupdating hticks) hu), hended⟩
  refine List.forall_mem_append.mpr ⟨fun l hl => ?_, List.forall_mem_cons.mpr ⟨trivial, hls⟩⟩
  rw [List.eq_of_mem_replicate hl]
  exact rfl

/-- **The driver ends after `Stop`**, whatever the other threads and the handlers do: it reads the
clock at most once more, if it is asleep, makes one tick for each millisecond up to that reading,
and at every moment it can come to its end by its own steps. -/
theorem ends_after_stop (hd : Reachable c Call.Positive d) (hstop : d.running = false)
    (hrun : Run Step d ls u) (hls : ∀ l ∈ ls, l.All Call.Positive) :
    ls.countP Label.isUpdate ≤ (if d.pc = .asleep then 1 else 0) ∧
      ls.countP Label.isExecutes + u.ticks + d.lastTime.toNat = d.ticks + u.lastTime.toNat ∧
      (u.pc = .ended → u.ticks = 0) ∧
      ∀ h : Handlers, h.All Call.Positive → ∃ (ms : List Label) (v : TimerDriver),
        (∀ l ∈ ms, l.Own h) ∧ Run Step u ms v ∧ v.pc = .ended := by
  have hu := hd.run hls hrun
  have hstop' := running_run hrun hstop
  refine ⟨updates_after_stop hrun hstop, hd.clocked.ticks hd.manager.inv hrun,
    fun hpc => hu.clocked.idle (by rw [hpc]; nofun), fun h hh => ?_⟩
  cases hpc : u.pc with
  | test => exact exists_run_of_test hpc hstop'
  | asleep =>
    have hupdate := Step.update hpc (UInt64.le_refl u.lastTime)
    obtain ⟨ms, v, hms, hv, hended⟩ :=
      (hu.run (by simp [Label.All]) (.single hupdate)).exists_run_of_updating rfl hstop' hh
    exact ⟨.update u.lastTime :: ms, v, List.forall_mem_cons.mpr ⟨trivial, hms⟩,
      .cons hupdate hv, hended⟩
  | updating => exact hu.exists_run_of_updating hpc hstop' hh
  | ended => exact ⟨[], u, nofun, .nil u, hpc⟩

/-- A driver that is stopped in its sleep, three milliseconds after its construction. -/
theorem ends_after_stop_asleep :
    ∃ (u v : TimerDriver) (ms : List Label), u.ticks = 3 ∧ Run Step u ms v ∧ v.pc = .ended := by
  have hd : Reachable 1000 Call.Positive
      { construct 1000 with running := false, pc := .asleep } :=
    ⟨[.loop, .stop], by simp [Label.All], .cons (.loop rfl) (.single (.stop _))⟩
  obtain ⟨-, -, -, hends⟩ := ends_after_stop hd rfl
    (.single (.update rfl (by decide : (construct 1000).lastTime ≤ 1003)))
    (List.forall_mem_singleton.mpr trivial)
  obtain ⟨ms, v, -, hrun, hended⟩ := hends idle idle_all
  exact ⟨_, v, ms, rfl, hrun, hended⟩

/-! ### The schedule in milliseconds -/

/-- **How often a timer is triggered** in its first `d` ticks. -/
theorem count_history (x : NodeId) (n i : ℕ) (hi : 1 ≤ i) (d : ℕ) :
    (history x n i d).count (.onTrigger x) = min n ((d - 1) / i) := by
  induction d with
  | zero => simp [history]
  | succ d ih =>
    have hdue : (due x n i d).count (.onTrigger x) =
        if i ∣ d ∧ 0 < d ∧ d ≤ n * i then 1 else 0 := by
      have hiff : ((i : ℤ) ∣ d ∧ 0 < (d : ℤ) ∧ (d : ℤ) ≤ n * i) ↔ (i ∣ d ∧ 0 < d ∧ d ≤ n * i) := by
        rw [Int.natCast_dvd_natCast]
        norm_cast
      rw [due, if_congr hiff rfl rfl]
      split_ifs <;> simp
    rw [history_succ, List.count_append, ih, hdue, Nat.add_sub_cancel]
    rcases d with _ | d
    · simp
    rw [Nat.add_sub_cancel, Nat.succ_div]
    by_cases hdvd : i ∣ d + 1
    · obtain ⟨j, hj⟩ := hdvd
      have hdvd : i ∣ d + 1 := ⟨j, hj⟩
      have hdiv : d / i + 1 = j := by
        have hsucc : (d + 1) / i = d / i + if i ∣ d + 1 then 1 else 0 := Nat.succ_div
        rw [if_pos hdvd, hj, Nat.mul_div_cancel_left j (by omega)] at hsucc
        exact hsucc.symm
      have hle : d + 1 ≤ n * i ↔ j ≤ n := by
        rw [hj, mul_comm i j]
        exact Nat.mul_le_mul_right_iff (by omega)
      rw [if_pos hdvd]
      by_cases hjn : j ≤ n
      · rw [if_pos ⟨hdvd, Nat.succ_pos d, hle.mpr hjn⟩]
        omega
      · rw [if_neg fun h => hjn (hle.mp h.2.2)]
        omega
    · rw [if_neg hdvd, if_neg fun h => hdvd h.1, Nat.add_zero, Nat.add_zero]

/-- When it is stopped. -/
theorem mem_history_iff (x : NodeId) (n i : ℕ) (hn : 1 ≤ n) (hi : 1 ≤ i) (d : ℕ) :
    Callback.onStop x false ∈ history x n i d ↔ n * i < d := by
  have hdue : ∀ k : ℕ, Callback.onStop x false ∈ due x n i k ↔ k = n * i := by
    intro k
    rw [due]
    constructor
    · intro hstop
      split_ifs at hstop with hwhole hlast
      · exact_mod_cast hlast
      · simp at hstop
      · simp at hstop
    · rintro rfl
      have hwhole : (i : ℤ) ∣ ((n * i : ℕ) : ℤ) ∧ 0 < ((n * i : ℕ) : ℤ) ∧
          ((n * i : ℕ) : ℤ) ≤ n * i := by
        refine ⟨?_, by exact_mod_cast Nat.mul_pos hn hi, by push_cast; exact le_rfl⟩
        rw [Int.natCast_dvd_natCast]
        exact Dvd.intro_left n rfl
      rw [if_pos hwhole, if_pos (by push_cast; rfl)]
      simp
  induction d with
  | zero => simp [history]
  | succ d ih =>
    rw [history_succ, List.mem_append]
    refine (or_congr ih (hdue d)).trans ?_
    omega

/-- The time up to which the ticks have been made. -/
def executed (d : TimerDriver) : ℕ := d.lastTime.toNat - d.ticks

theorem Clocked.executed (hd : Clocked c d) :
    (d.executed : ℤ) = c.toNat + d.manager.tickTime := by
  obtain ⟨hle, hnonneg, hsum, -⟩ := hd
  rw [TimerDriver.executed]
  omega

/-- **A timer runs by the clock.** Let an event of the caller that is not registered be started with
a count `n` of at least one and a period of `i` milliseconds. In every later state, after any run in
which it is not paused, resumed or destroyed, it has been triggered once for each period that had
passed before the time up to which the ticks have been made, but no more than `n` times, and it has
been stopped once these have all passed. -/
theorem wall_clock (hd : Reachable c P d) {id : ℕ} (hm : d.manager.managerMap (.given id) = none)
    {n : Int64} (hn : 1 ≤ n.toInt) {i : ℕ} (hi : 1 ≤ i) (hlimit : i ≤ 0xffffffff)
    (hrun : Run Step { d with manager := (d.manager.start (.given id) n i).2 } ls u)
    (hls : ∀ l ∈ ls, l.All fun c => ¬c.Touches (.given id)) :
    u.manager.triggers d.manager.nextNode =
        min n.toInt.toNat ((u.executed - d.executed - 1) / i) ∧
      (Callback.onStop d.manager.nextNode false ∈ u.manager.callbacks d.manager.nextNode ↔
        n.toInt.toNat * i < u.executed - d.executed) := by
  have hI := hd.manager.inv
  obtain ⟨-, hon⟩ := onSchedule_start hI hm hn (i := i) (by omega) (by omega)
  have heff := hI.agree.effect (.start (.given id) n i)
  have hI₁ : Inv [] (d.manager.start (.given id) n i).2 := heff.inv hI
  obtain ⟨-, hu⟩ := hon.run hI₁ (by omega) (run_manager hrun) (all_toManager hls)
  -- the clocks of the two states
  have hclocked : Clocked c { d with manager := (d.manager.start (.given id) n i).2 } := by
    obtain ⟨hle, hnonneg, htick, hidle⟩ := hd.clocked
    have hsame : (d.manager.start (.given id) n i).2.tickTime = d.manager.tickTime :=
      heff.frame.tickTime
    exact ⟨hle, hsame ▸ hnonneg, by rw [← htick, ← hsame], hidle⟩
  have hde := hd.clocked.executed
  have hue := (hclocked.run hI₁ hrun).executed
  have helapsed : (u.manager.tickTime - d.manager.tickTime).toNat = u.executed - d.executed := by
    omega
  have hcount : n.toInt = (n.toInt.toNat : ℤ) := by omega
  have hcallbacks : u.manager.callbacks d.manager.nextNode =
      history d.manager.nextNode n.toInt.toNat i (u.executed - d.executed) := by
    rw [hu.callbacks, helapsed, ← hcount]
  constructor
  · rw [← count_callbacks, hcallbacks, count_history _ _ _ hi]
  · rw [hcallbacks, mem_history_iff _ _ _ (by omega) hi]

/-- An event that is started three times for two milliseconds on a new manager, when ten have
passed. -/
theorem wall_clock_construct :
    ∃ u : TimerDriver, u.lastTime = 1010 ∧ u.manager.triggers 0 = 3 ∧
      Callback.onStop 0 false ∈ u.manager.callbacks 0 := by
  have hd : Reachable 1000 (fun _ => True) (construct 1000) := ⟨[], nofun, .nil _⟩
  have hstarted : Reachable 1000 Call.Positive
      { construct 1000 with manager := ((construct 1000).manager.start (.given 0) 3 (2 : ℕ)).2 } :=
    ⟨[.call (.start (.given 0) 3 2)], by simp [Label.All, Call.Positive],
      .single (.call _ (.start (.given 0) 3 2))⟩
  have hnow : (construct 1000).lastTime ≤ 1010 := by decide
  obtain ⟨u, hrun, hlast, hticks⟩ := hstarted.exists_run_update rfl rfl hnow
  have hnone : (construct 1000).manager.managerMap (.given 0) = none := rfl
  have hclock := wall_clock hd hnone (n := 3) (by decide) (i := 2) (by decide) (by decide) hrun
    (turn_all _ _)
  have hexecuted : u.executed = 1010 := by
    rw [executed, hlast, hticks]
    rfl
  rw [hexecuted] at hclock
  exact ⟨u, hlast, hclock.1, hclock.2.mpr (by decide)⟩

end TimerDriver

end Timer

end MToolkit

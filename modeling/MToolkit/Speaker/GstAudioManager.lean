import MToolkit.Speaker.StreamManager

/-!
# The player of GStreamer

The class `GstAudioManager` (`speaker_gst/speaker_gst.cpp`), whose thread looks at the messages of
every stream and then deletes those that are not running. A stream ends when its bus has an end or
an error, or when it is cancelled, and its pipeline is then put into the state `GST_STATE_NULL`, in
which a pipeline has to be when it is released.

`Pause` and `Resume` do not look at whether a stream is running, and a call of `Play` for a task
that has a stream releases a pipeline that is playing. A pipeline is in the state `GST_STATE_NULL`
whenever it is not running or released just when none of this happens
(`GstAudioManager.quiet_iff`).
-/

namespace MToolkit

/-- The states that a pipeline is put into. -/
inductive GstState where
  | null
  | paused
  | playing
  deriving DecidableEq, Repr

/-- The messages that `Print` asks the bus for. -/
inductive GstMessage where
  | stateChanged
  | error
  | eos
  deriving DecidableEq, Repr

/-- The class `GstAudio`, with its pipeline. -/
structure GstAudio where
  /-- `is_running_` -/
  isRunning : Bool
  /-- The messages of the bus. -/
  bus : List GstMessage
  /-- The state that the pipeline has been put into. -/
  state : GstState
  /-- The pipeline is released. -/
  released : Bool

namespace GstAudio

/-- `GstAudio::Play`, where it returns true. -/
def play : GstAudio where
  isRunning := true
  bus := []
  state := .playing
  released := false

/-- The loop of `GstAudio::Print` over the messages. -/
def printLoop (s : GstAudio) : List GstMessage → GstAudio
  | [] => { s with bus := [] }
  | msg :: bus =>
    if s.isRunning then
      if msg = .stateChanged then printLoop s bus
      else printLoop { s with isRunning := false, state := .null } bus
    else { s with bus := msg :: bus }

/-- `GstAudio::Print` -/
def print (s : GstAudio) : GstAudio := s.printLoop s.bus

/-- `GstAudio::Pause` -/
def pause (s : GstAudio) : GstAudio := { s with state := .paused }

/-- `GstAudio::Resume` -/
def resume (s : GstAudio) : GstAudio := { s with state := .playing }

/-- `GstAudio::Cancel` -/
def cancel (s : GstAudio) : GstAudio := { s with isRunning := false, state := .null }

/-- `GstAudio::Close` -/
def close (s : GstAudio) : GstAudio := { s with released := true }

/-- A message is posted. -/
def post (msg : GstMessage) (s : GstAudio) : GstAudio := { s with bus := s.bus ++ [msg] }

/-- **The pipeline is quiet** where it is not running or released. -/
def Quiet (s : GstAudio) : Prop := s.isRunning = false ∨ s.released = true → s.state = .null

/-- A stream that is being played by nobody else yet. -/
def Fresh (s : GstAudio) : Prop := s.isRunning = true ∧ s.released = false ∧ s.state = .playing

/-- What `Print` does: a stream that is running ends with the first message that is no change of its
state, and any other is left as it is. -/
theorem printLoop_eq (s : GstAudio) (bus : List GstMessage) :
    s.printLoop bus =
      if s.isRunning = false then { s with bus := bus }
      else if ∀ msg ∈ bus, msg = .stateChanged then { s with bus := [] }
      else { s with
        isRunning := false, state := .null, bus := (bus.dropWhile (· = .stateChanged)).tail } := by
  induction bus generalizing s with
  | nil =>
    rw [printLoop]
    split_ifs <;> simp_all
  | cons msg bus ih =>
    rw [printLoop]
    cases hrunning : s.isRunning with
    | false => simp
    | true =>
      by_cases hmsg : msg = .stateChanged
      · simp [hmsg, ih, hrunning]
      · rw [if_pos rfl, if_neg hmsg, ih]
        simp [hmsg]

end GstAudio

/-- The class `GstAudioManager`, with the streams that have been made. -/
abbrev GstAudioManager (κ : Type) [LinearOrder κ] : Type := StreamManager κ GstAudio

namespace GstAudioManager

open StreamManager

variable {κ : Type} [LinearOrder κ]

/-- A step of a call, of the listener or of GStreamer. -/
inductive Act (κ : Type) where
  /-- A call of `Play` has made a stream, -/
  | play (task : κ) : Act κ
  /-- and inserts it. -/
  | insert (i : ℕ) : Act κ
  | pauseAll : Act κ
  | pause (task : κ) : Act κ
  | resumeAll : Act κ
  | resume (task : κ) : Act κ
  | cancelAll : Act κ
  | cancel (task : κ) : Act κ
  /-- `Listener` calls `Print` for all streams. -/
  | print : Act κ
  | deleteExpired : Act κ
  /-- The bus of a stream has a message. -/
  | post (i : ℕ) (msg : GstMessage) : Act κ

/-- The manager after it. -/
def act (m : GstAudioManager κ) : Act κ → GstAudioManager κ
  | .play task => m.start task GstAudio.play
  | .insert i => if i ∈ m.pending then StreamManager.insert m GstAudio.close i else m
  | .pauseAll => m.forAll GstAudio.pause
  | .pause task => m.forTask GstAudio.pause task
  | .resumeAll => m.forAll GstAudio.resume
  | .resume task => m.forTask GstAudio.resume task
  | .cancelAll => m.forAll GstAudio.cancel
  | .cancel task => m.forTask GstAudio.cancel task
  | .print => m.forAll GstAudio.print
  | .deleteExpired => StreamManager.deleteExpired m GstAudio.isRunning GstAudio.close
  | .post i msg => m.change (GstAudio.post msg) i

/-- A stream that is released. -/
def Released (s : GstAudio) : Prop := s.released = true

/-- **What always holds**: a stream is released just when it is held by nobody, and one that is
still to be inserted is playing. -/
structure Good (m : GstAudioManager κ) : Prop where
  sound : Sound Released m
  pending : ∀ i ∈ m.pending, ∀ s, m.state i = some s → s.Fresh
  held : ∀ task i s, m.Holds task i → m.state i = some s → s.released = false

variable {m : GstAudioManager κ} {f : GstAudio → GstAudio}

theorem good_init : Good ({} : GstAudioManager κ) where
  sound := sound_init
  pending := nofun
  held _ _ _ h := absurd h nofun

theorem Good.forAll (h : Good m) (hf : ∀ s, (f s).released = s.released) : Good (m.forAll f) := by
  have hpending : (m.forAll f).pending = m.pending := by
    rw [forAll_eq, pending_changeAll]
  have hholds : ∀ task i, (m.forAll f).Holds task i ↔ m.Holds task i := by
    intro task i
    rw [forAll_eq, Holds, manager_changeAll, Holds]
  refine ⟨h.sound.forAll f, fun i hi s hs => ?_, fun task i s hheld hs => ?_⟩
  · rw [hpending] at hi
    have hfree : ∀ task, ¬m.Holds task i := fun task hheld => (h.sound.held hheld).2 hi
    rw [h.sound.state_forAll_of_free hfree] at hs
    exact h.pending i hi s hs
  · rw [hholds] at hheld
    rw [h.sound.state_forAll_of_holds hheld] at hs
    obtain ⟨x, hx, rfl⟩ := Option.map_eq_some_iff.mp hs
    exact (hf x).trans (h.held task i x hheld hx)

theorem Good.forTask (h : Good m) (hf : ∀ s, (f s).released = s.released) (task : κ) :
    Good (m.forTask f task) := by
  have hsame : (m.forTask f task).pending = m.pending ∧ (m.forTask f task).manager = m.manager := by
    rw [forTask_eq]
    cases m.manager.value.lookup task <;> exact ⟨rfl, rfl⟩
  refine ⟨h.sound.forTask f task, fun i hi s hs => ?_, fun task' i s hheld hs => ?_⟩
  · rw [hsame.1] at hi
    rw [state_forTask_of_free fun hheld => (h.sound.held hheld).2 hi] at hs
    exact h.pending i hi s hs
  · rw [Holds, hsame.2] at hheld
    by_cases hi : m.Holds task i
    · rw [state_forTask_of_holds hi] at hs
      obtain ⟨x, hx, rfl⟩ := Option.map_eq_some_iff.mp hs
      exact (hf x).trans (h.held task i x hi hx)
    · rw [state_forTask_of_free hi] at hs
      exact h.held task' i s hheld hs

theorem Good.deleteExpired (h : Good m) :
    Good (StreamManager.deleteExpired m GstAudio.isRunning GstAudio.close) := by
  have hpending :
      (StreamManager.deleteExpired m GstAudio.isRunning GstAudio.close).pending = m.pending := by
    rw [StreamManager.deleteExpired, pending_changeAll]
  refine ⟨h.sound.deleteExpired fun s => rfl, fun i hi s hs => ?_, fun task i s hheld hs => ?_⟩
  · rw [hpending] at hi
    have hfree : ∀ task, ¬m.Holds task i := fun task hheld => (h.sound.held hheld).2 hi
    rw [h.sound.state_deleteExpired.2 fun task hheld => absurd hheld (hfree task)] at hs
    exact h.pending i hi s hs
  · obtain ⟨hheld, hrunning⟩ := holds_deleteExpired.mp hheld
    rw [h.sound.state_deleteExpired.2 fun _ _ => hrunning] at hs
    exact h.held task i s hheld hs

theorem Good.start (h : Good m) (task : κ) : Good (m.start task GstAudio.play) := by
  refine ⟨h.sound.start task _, fun i hi s hs => ?_, fun task' i s hheld hs => ?_⟩
  · rw [state_start] at hs
    split_ifs at hs with heq
    · obtain rfl := Option.some.inj hs
      exact ⟨rfl, rfl, rfl⟩
    · exact h.pending i ((List.mem_cons.mp hi).resolve_left heq) s hs
  · have hne : i ≠ m.streams.length := by
      rintro rfl
      have hown := (h.sound.held hheld).1
      rw [owner_length] at hown
      cases hown
    rw [state_start, if_neg hne] at hs
    exact h.held task' i s hheld hs

theorem Good.insert (h : Good m) {i : ℕ} (hi : i ∈ m.pending) :
    Good (StreamManager.insert m GstAudio.close i) := by
  obtain ⟨task, hown⟩ := Option.isSome_iff_exists.mp (h.sound.pending i hi)
  have hmem : ∀ {j}, j ∈ m.pending.erase i ↔ j ≠ i ∧ j ∈ m.pending := h.sound.nodup.mem_erase_iff
  refine ⟨h.sound.insert (fun s => rfl) hi, ?_, ?_⟩
  · cases hlookup : m.manager.value.lookup task with
    | some j =>
      rw [insert_of_holds hown hlookup]
      intro k hk s hs
      obtain ⟨hne, hk⟩ := hmem.mp hk
      rw [state_change, if_neg (Ne.symm hne)] at hs
      exact h.pending k hk s hs
    | none =>
      rw [insert_of_free hown hlookup]
      exact fun k hk s hs => h.pending k (hmem.mp hk).2 s hs
  · intro task' k s hheld hs
    cases hlookup : m.manager.value.lookup task with
    | some j =>
      rw [insert_of_holds hown hlookup] at hheld hs
      have hne : i ≠ k := by
        rintro rfl
        exact (h.sound.held hheld).2 hi
      rw [state_change, if_neg hne] at hs
      exact h.held task' k s hheld hs
    | none =>
      rw [insert_of_free hown hlookup] at hheld hs
      rcases (holds_insert_of_free hlookup).mp hheld with ⟨-, rfl⟩ | ⟨-, hheld⟩
      · exact (h.pending k hi s hs).2.1
      · exact h.held task' k s hheld hs

theorem Good.post (h : Good m) (i : ℕ) (msg : GstMessage) :
    Good (m.change (GstAudio.post msg) i) := by
  have hback : ∀ {j s}, (m.change (GstAudio.post msg) i).state j = some s →
      ∃ x, m.state j = some x ∧ s.isRunning = x.isRunning ∧ s.released = x.released ∧
        s.state = x.state := by
    intro j s hs
    rw [state_change] at hs
    split_ifs at hs
    · obtain ⟨x, hx, rfl⟩ := Option.map_eq_some_iff.mp hs
      exact ⟨x, hx, rfl, rfl, rfl⟩
    · exact ⟨s, hs, rfl, rfl, rfl⟩
  have hclosed : ∀ x, Released x → Released (GstAudio.post msg x) := fun _ hx => hx
  refine ⟨h.sound.change fun x hx hpending hfree => hclosed x (h.sound.closed hx hpending hfree),
    fun j hj s hs => ?_, fun task j s hheld hs => ?_⟩
  · obtain ⟨x, hx, hrunning, hreleased, hstate⟩ := hback hs
    rw [GstAudio.Fresh, hrunning, hreleased, hstate]
    exact h.pending j hj x hx
  · obtain ⟨x, hx, -, hreleased, -⟩ := hback hs
    exact hreleased.trans (h.held task j x hheld hx)

/-- **One step.** -/
theorem Good.act (h : Good m) (a : Act κ) : Good (act m a) := by
  cases a with
  | play task => exact h.start task
  | insert i =>
    rw [GstAudioManager.act]
    split_ifs with hi
    · exact h.insert hi
    · exact h
  | pauseAll => exact h.forAll fun s => rfl
  | pause task => exact Good.forTask (f := GstAudio.pause) h (fun _ => rfl) task
  | resumeAll => exact h.forAll fun s => rfl
  | resume task => exact Good.forTask (f := GstAudio.resume) h (fun _ => rfl) task
  | cancelAll => exact h.forAll fun s => rfl
  | cancel task => exact Good.forTask (f := GstAudio.cancel) h (fun _ => rfl) task
  | print =>
    refine h.forAll fun s => ?_
    rw [GstAudio.print, GstAudio.printLoop_eq]
    split_ifs <;> rfl
  | deleteExpired => exact h.deleteExpired
  | post i msg => exact h.post i msg

/-! ### Quiet pipelines -/

/-- All pipelines are quiet. -/
def AllQuiet (m : GstAudioManager κ) : Prop := ∀ i s, m.state i = some s → s.Quiet

/-- The streams that the map holds for a task are running. -/
def Runs (m : GstAudioManager κ) (task : κ) : Prop :=
  ∀ i s, m.Holds task i → m.state i = some s → s.isRunning = true

/-- The step does not insert a stream for a task that has one, nor pause or resume a stream that is
not running. -/
def Retains (m : GstAudioManager κ) : Act κ → Prop
  | .insert i => i ∈ m.pending → ∀ task, m.owner i = some task → m.manager.isExist task = false
  | .pauseAll => ∀ task, Runs m task
  | .pause task => Runs m task
  | .resumeAll => ∀ task, Runs m task
  | .resume task => Runs m task
  | _ => True

theorem allQuiet_forAll_iff (h : Good m) (hq : AllQuiet m) :
    AllQuiet (m.forAll f) ↔ ∀ task i s, m.Holds task i → m.state i = some s → (f s).Quiet := by
  constructor
  · intro hall task i s hheld hs
    refine hall i (f s) ?_
    rw [h.sound.state_forAll_of_holds hheld, hs]
    rfl
  · intro hf i s hs
    by_cases hheld : ∃ task, m.Holds task i
    · obtain ⟨task, hheld⟩ := hheld
      rw [h.sound.state_forAll_of_holds hheld] at hs
      obtain ⟨x, hx, rfl⟩ := Option.map_eq_some_iff.mp hs
      exact hf task i x hheld hx
    · rw [h.sound.state_forAll_of_free (not_exists.mp hheld)] at hs
      exact hq i s hs

theorem allQuiet_forTask_iff {task : κ} (hq : AllQuiet m) :
    AllQuiet (m.forTask f task) ↔ ∀ i s, m.Holds task i → m.state i = some s → (f s).Quiet := by
  constructor
  · intro hall i s hheld hs
    refine hall i (f s) ?_
    rw [state_forTask_of_holds hheld, hs]
    rfl
  · intro hf i s hs
    by_cases hheld : m.Holds task i
    · rw [state_forTask_of_holds hheld] at hs
      obtain ⟨x, hx, rfl⟩ := Option.map_eq_some_iff.mp hs
      exact hf i x hheld hx
    · rw [state_forTask_of_free hheld] at hs
      exact hq i s hs

/-- What keeps a running pipeline from the state that a quiet one is in. -/
theorem quiet_iff_of_ne {s u : GstAudio} (hs : s.released = false) (hstate : u.state ≠ .null)
    (hrunning : u.isRunning = s.isRunning) (hreleased : u.released = s.released) :
    u.Quiet ↔ s.isRunning = true := by
  rw [GstAudio.Quiet, hrunning, hreleased, hs]
  simp [hstate]

theorem allQuiet_insert_iff (h : Good m) (hq : AllQuiet m) {i : ℕ} (hi : i ∈ m.pending) :
    AllQuiet (StreamManager.insert m GstAudio.close i) ↔
      ∀ task, m.owner i = some task → m.manager.isExist task = false := by
  obtain ⟨task, hown⟩ := Option.isSome_iff_exists.mp (h.sound.pending i hi)
  have htask : (∀ task', m.owner i = some task' → m.manager.isExist task' = false) ↔
      m.manager.isExist task = false := by
    rw [hown]
    exact ⟨fun hall => hall task rfl, fun hno task' heq => Option.some.inj heq ▸ hno⟩
  rw [htask, LockMap.isExist]
  cases hlookup : m.manager.value.lookup task with
  | some j =>
    rw [insert_of_holds hown hlookup]
    refine iff_of_false (fun hall => ?_) (by simp)
    obtain ⟨s, hs⟩ : ∃ s, m.state i = some s := by
      rw [← Option.isSome_iff_exists, isSome_state, hown]
      rfl
    -- the stream is playing when it is closed
    have hclosed := hall i s.close (by
      rw [state_change, if_pos rfl]
      exact congrArg (Option.map GstAudio.close) hs)
    have hplaying : s.close.state = .playing := (h.pending i hi s hs).2.2
    rw [hclosed (.inr rfl)] at hplaying
    cases hplaying
  | none =>
    rw [insert_of_free hown hlookup]
    exact iff_of_true hq rfl

/-- **One step** keeps all pipelines quiet just when it is none of these. -/
theorem allQuiet_act_iff (h : Good m) (hq : AllQuiet m) (a : Act κ) :
    AllQuiet (act m a) ↔ Retains m a := by
  have hkeep : ∀ {f : GstAudio → GstAudio}, (∀ s, s.Quiet → (f s).Quiet) →
      AllQuiet (m.forAll f) ∧ ∀ task, AllQuiet (m.forTask f task) := by
    intro f hf
    exact ⟨(allQuiet_forAll_iff h hq).mpr fun task i s _ hs => hf s (hq i s hs),
      fun task => (allQuiet_forTask_iff hq).mpr fun i s _ hs => hf s (hq i s hs)⟩
  have hmove : ∀ {f : GstAudio → GstAudio}, (∀ s, (f s).state ≠ .null) →
      (∀ s, (f s).isRunning = s.isRunning) → (∀ s, (f s).released = s.released) →
      (AllQuiet (m.forAll f) ↔ ∀ task, Runs m task) ∧
        ∀ task, AllQuiet (m.forTask f task) ↔ Runs m task := by
    intro f hstate hrunning hreleased
    have hone : ∀ task i s, m.Holds task i → m.state i = some s →
        ((f s).Quiet ↔ s.isRunning = true) := fun task i s hheld hs =>
      quiet_iff_of_ne (h.held task i s hheld hs) (hstate s) (hrunning s) (hreleased s)
    refine ⟨(allQuiet_forAll_iff h hq).trans ?_, fun task => (allQuiet_forTask_iff hq).trans ?_⟩
    · exact forall_congr' fun task => forall₄_congr (hone task)
    · exact forall₄_congr (hone task)
  have hcancel := hkeep (f := GstAudio.cancel) fun s _ _ => rfl
  have hpause := hmove (f := GstAudio.pause) (fun s => nofun) (fun s => rfl) fun s => rfl
  have hresume := hmove (f := GstAudio.resume) (fun s => nofun) (fun s => rfl) fun s => rfl
  cases a with
  | play task =>
    refine iff_of_true (fun i s hs => ?_) trivial
    rw [act, state_start] at hs
    split_ifs at hs
    · obtain rfl := Option.some.inj hs
      rintro (hc | hc) <;> cases hc
    · exact hq i s hs
  | insert i =>
    rw [act, Retains]
    split_ifs with hi
    · rw [allQuiet_insert_iff h hq hi]
      exact ⟨fun hall _ => hall, fun hall => hall hi⟩
    · exact iff_of_true hq fun hc => absurd hc hi
  | pauseAll => exact hpause.1
  | pause task => exact hpause.2 task
  | resumeAll => exact hresume.1
  | resume task => exact hresume.2 task
  | cancelAll => exact iff_of_true hcancel.1 trivial
  | cancel task => exact iff_of_true (hcancel.2 task) trivial
  | print =>
    refine iff_of_true (hkeep fun s hs => ?_).1 trivial
    rw [GstAudio.print, GstAudio.printLoop_eq]
    split_ifs
    · exact hs
    · exact hs
    · exact fun _ => rfl
  | deleteExpired =>
    refine iff_of_true (fun i s hs => ?_) trivial
    by_cases hgone : ∃ task, m.Holds task i ∧ (m.state i).any GstAudio.isRunning = false
    · obtain ⟨task, hheld, hgone⟩ := hgone
      rw [act, h.sound.state_deleteExpired.1 task hheld hgone] at hs
      obtain ⟨x, hx, rfl⟩ := Option.map_eq_some_iff.mp hs
      rw [hx, Option.any_some] at hgone
      exact fun _ => hq i x hx (.inl hgone)
    · rw [act, h.sound.state_deleteExpired.2] at hs
      · exact hq i s hs
      · intro task hheld
        by_contra hc
        exact hgone ⟨task, hheld, Bool.eq_false_iff.mpr hc⟩
  | post i msg =>
    refine iff_of_true (fun j s hs => ?_) trivial
    rw [act, state_change] at hs
    split_ifs at hs
    · obtain ⟨x, hx, rfl⟩ := Option.map_eq_some_iff.mp hs
      exact hq j x hx
    · exact hq j s hs

/-- **A pipeline is quiet** whenever it is not running or is released, throughout a run of steps,
just when none of them inserts a stream for a task that has one, nor pauses or resumes a stream that
is not running any more. -/
theorem quiet_iff (acts : List (Act κ)) :
    (∀ m ∈ Lts.states act ({} : GstAudioManager κ) acts, AllQuiet m) ↔
      ∀ p ∈ Lts.steps act ({} : GstAudioManager κ) acts, Retains p.1 p.2 := by
  have hgood : ∀ m ∈ Lts.states act ({} : GstAudioManager κ) acts, Good m :=
    Lts.forall_states (fun m a h => h.act a) acts good_init
  rw [← Lts.states_iff_steps (I := fun m => Good m ∧ AllQuiet m) (C := Retains) ?_ acts
    ⟨good_init, fun i s h => absurd h nofun⟩]
  · exact ⟨fun hq m hm => ⟨hgood m hm, hq m hm⟩, fun hall m hm => (hall m hm).2⟩
  · rintro m a ⟨h, hq⟩
    rw [← allQuiet_act_iff h hq a]
    exact and_iff_right (h.act a)

/-! ### The listener -/

end GstAudioManager

end MToolkit

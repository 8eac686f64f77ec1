import MToolkit.Speaker.Lifecycle
import MToolkit.Speaker.StreamManager

/-!
# The player of PulseAudio

The class `PulseAudioManager` (`speaker_pulseaudio/speaker_pulseaudio.cpp`). Its calls are made by
any threads, while PulseAudio requests and drains in its own. A call of `Play` is three steps: it
deletes the expired streams, starts a new one where the context is connected, and inserts it; that
the context is connected is tested, and the stream started, in one of them. Each callback of
PulseAudio is one step, and so is each `Pause`, `Resume` and `Cancel` of a stream, although no lock
of the source keeps a call of these and a callback of the same stream apart.

Each stream that `Play` makes goes through a life of its own, as if it were alone
(`PulseAudioManager.plays`), and while it is running it is held by the map under its task, or by the
call of `Play`.
-/

namespace MToolkit

/-- A stream with the file that it plays. -/
structure Playback where
  file : List UInt8
  stream : AudioStream

/-- The class `PulseAudioManager`, between its steps: callbacks, and calls on single streams, are
taken as atomic. -/
structure PulseAudioManager (κ : Type) [LinearOrder κ] where
  /-- `context_is_connect_` -/
  contextIsConnect : Bool := false
  /-- `stream_manager_`, with the streams that have been made. -/
  streams : StreamManager κ Playback := {}

namespace PulseAudioManager

open AudioStream StreamManager

variable {κ : Type} [LinearOrder κ]

/-- A function of streams, as one of playbacks. -/
def on (f : AudioStream → AudioStream) (p : Playback) : Playback := { p with stream := f p.stream }

def running (p : Playback) : Bool := p.stream.isRunning

/-- A step of a call, or of PulseAudio. -/
inductive Act (κ : Type) where
  | deleteExpired : Act κ
  /-- `AudioStream::Start` is done, with a file that can be opened. -/
  | start (task : κ) (file : List UInt8) : Act κ
  | insert (i : ℕ) : Act κ
  | pauseAll : Act κ
  | pause (task : κ) : Act κ
  | resumeAll : Act κ
  | resume (task : κ) : Act κ
  | cancelAll : Act κ
  | cancel (task : κ) : Act κ
  /-- `context_state_callback`, with whether the context is ready. -/
  | context (ready : Bool) : Act κ
  | exitLoop : Act κ
  /-- `stream_request_cb` or `stream_drain_complete` of a stream, after which it is `u`. -/
  | callback (i : ℕ) (e : AudioStream.Event) (u : AudioStream) : Act κ

/-- What it does with the streams. -/
def Act.toStreams : Act κ → Option (StreamManager.Act κ Playback)
  | .deleteExpired => some .deleteExpired
  | .start task file => some (.start task ⟨file, AudioStream.start file⟩)
  | .insert i => some (.insert i)
  | .pauseAll => some (.forAll (on AudioStream.pause))
  | .pause task => some (.forTask (on AudioStream.pause) task)
  | .resumeAll => some (.forAll (on AudioStream.resume))
  | .resume task => some (.forTask (on AudioStream.resume) task)
  | .cancelAll => some (.forAll (on AudioStream.cancel))
  | .cancel task => some (.forTask (on AudioStream.cancel) task)
  | .context _ => none
  | .exitLoop => none
  | .callback i _ u => some (.event (on fun _ => u) i)

/-- What it does with the connection. -/
def Act.toConnect (connected : Bool) : Act κ → Bool
  | .context ready => ready
  | .exitLoop => false
  | _ => connected

/-- The manager after it. -/
def act (m : PulseAudioManager κ) (a : Act κ) : PulseAudioManager κ where
  contextIsConnect := a.toConnect m.contextIsConnect
  streams := match a.toStreams with
    | some b => m.streams.act running (on AudioStream.close) b
    | none => m.streams

/-- It can be done: a stream is started where the context is connected, a call of `Play` inserts its
own, and a callback is called where PulseAudio may call it. -/
def Can (m : PulseAudioManager κ) : Act κ → Prop
  | .start _ _ => m.contextIsConnect = true
  | .insert i => i ∈ m.streams.pending
  | .callback i e u => e.Addressable ∧ (e = .drained ∨ ∃ r, e = .request r) ∧
      ∃ p, m.streams.state i = some p ∧ Happens p.stream e u
  | _ => True

/-- One step. -/
def Step (m : PulseAudioManager κ) (a : Act κ) (u : PulseAudioManager κ) : Prop :=
  m.Can a ∧ u = m.act a

/-! ### The life of each stream -/

/-- A playback becomes another by events of its stream. -/
def Becomes (p q : Playback) : Prop :=
  q.file = p.file ∧
    ∃ events, (∀ e ∈ events, AudioStream.Event.Addressable e) ∧
      Lts.Run Happens p.stream events q.stream

theorem becomes_refl (p : Playback) : Becomes p p := ⟨rfl, [], nofun, .nil _⟩

theorem becomes_trans {p q r : Playback} (h : Becomes p q) (h' : Becomes q r) : Becomes p r := by
  obtain ⟨hfile, events, haddr, hrun⟩ := h
  obtain ⟨hfile', events', haddr', hrun'⟩ := h'
  exact ⟨hfile'.trans hfile, events ++ events', List.forall_mem_append.mpr ⟨haddr, haddr'⟩,
    hrun.append hrun'⟩

/-- One event. -/
theorem Becomes.single {p : Playback} {u : AudioStream} {e : AudioStream.Event} (he : e.Addressable)
    (h : Happens p.stream e u) : Becomes p { p with stream := u } :=
  ⟨rfl, [e], List.forall_mem_singleton.mpr he, .single h⟩

/-- Each stream lives as it should. -/
def AllLive (m : PulseAudioManager κ) : Prop :=
  ∀ i p, m.streams.state i = some p → Lives p.file p.stream

theorem Becomes.lives {p q : Playback} (h : Becomes p q) (hp : Lives p.file p.stream) :
    Lives q.file q.stream := by
  obtain ⟨hfile, events, haddr, hrun⟩ := h
  rw [hfile]
  exact hrun.preserves (I := Lives p.file) (fun h he hstep => hstep.lives he h) haddr hp

/-- What PulseAudio does to a stream that lives as it should. -/
def Called (p q : Playback) : Prop :=
  Lives p.file p.stream ∧ ∃ e u, e.Addressable ∧ Happens p.stream e u ∧ q = { p with stream := u }

variable {m u : PulseAudioManager κ} {a : Act κ}

/-- What a step does with the streams is admissible, and does events to each of them. -/
theorem Can.admissible {b : StreamManager.Act κ Playback} (ha : m.Can a) (hm : m.AllLive)
    (hb : a.toStreams = some b) : m.streams.Admissible Called b ∧ b.Within Becomes := by
  cases a <;> simp only [Act.toStreams, Option.some.injEq, reduceCtorEq] at hb <;> subst hb
  case insert i => exact ⟨ha, trivial⟩
  case callback i e u =>
    obtain ⟨he, -, p, hp, hevent⟩ := ha
    exact ⟨⟨p, hp, hm i p hp, e, u, he, hevent, rfl⟩, trivial⟩
  case pauseAll => exact ⟨trivial, fun p => .single (e := .pause) trivial (.pause _)⟩
  case pause => exact ⟨trivial, fun p => .single (e := .pause) trivial (.pause _)⟩
  case resumeAll => exact ⟨trivial, fun p => .single (e := .resume) trivial (.resume _)⟩
  case resume => exact ⟨trivial, fun p => .single (e := .resume) trivial (.resume _)⟩
  case cancelAll => exact ⟨trivial, fun p => .single (e := .cancel) trivial (.cancel _)⟩
  case cancel => exact ⟨trivial, fun p => .single (e := .cancel) trivial (.cancel _)⟩
  all_goals exact ⟨trivial, trivial⟩

/-- **One step** does events to each stream. -/
theorem Step.evolves (h : Step m a u) (hm : m.AllLive) : Evolves Becomes m.streams u.streams := by
  obtain ⟨hcan, rfl⟩ := h
  rw [act]
  cases hb : a.toStreams with
  | none => exact fun i p hp => ⟨p, hp, becomes_refl p⟩
  | some b =>
    obtain ⟨hadmissible, hwithin⟩ := hcan.admissible hm hb
    refine evolves_act becomes_refl becomes_trans
      (fun p => .single (e := .destroyed) trivial (.destroyed _)) ?_ hadmissible hwithin
    rintro p q ⟨-, e, u, he, hevent, rfl⟩
    exact .single he hevent

/-- A stream that has not been there before has just been started. -/
theorem Step.lives (h : Step m a u) (hm : m.AllLive) : u.AllLive := by
  intro i q hq
  have hevolves := h.evolves hm i
  obtain ⟨-, rfl⟩ := h
  cases hp : m.streams.state i with
  | some p =>
    obtain ⟨q', hq', hbecomes⟩ := hevolves p hp
    rw [hq, Option.some.injEq] at hq'
    subst hq'
    exact hbecomes.lives (hm i p hp)
  | none =>
    rw [act] at hq
    cases hb : a.toStreams with
    | none =>
      rw [hb] at hq
      rw [hp] at hq
      cases hq
    | some b =>
      rw [hb] at hq
      rcases state_act hq with hsome | ⟨task, rfl⟩
      · rw [hp] at hsome
        cases hsome
      · cases a <;> simp only [Act.toStreams, Option.some.injEq, reduceCtorEq,
          StreamManager.Act.start.injEq] at hb
        obtain ⟨-, rfl⟩ := hb
        exact lives_start _

/-- A stream that is not running. -/
def Ended (p : Playback) : Prop := p.stream.isRunning = false

/-- **One step** keeps each stream held or ended. -/
theorem Step.sound (h : Step m a u) (hm : m.AllLive) (hs : Sound Ended m.streams) :
    Sound Ended u.streams := by
  obtain ⟨hcan, rfl⟩ := h
  rw [act]
  cases hb : a.toStreams with
  | none => exact hs
  | some b =>
    have hclose : ∀ p, Ended (on AudioStream.close p) := fun _ => rfl
    refine hs.act hclose ?_ (hcan.admissible hm hb).1
    rintro p q ⟨hlives, e, u, he, hevent, rfl⟩ hended
    exact (hevent.closed hlives hended).1

/-- **Every stream plays as if it were alone**, in any interleaving of the calls of any threads and
of the callbacks of PulseAudio: what has been written of it is a beginning of its file, it is
drained at most once and behind all of the file, and what becomes of it later is made of events of
its own. While it is running it is held by the map, under the task it was made for and no other, or
by a call of `Play` that has still to insert it. -/
theorem plays (acts later : List (Act κ)) (m u : PulseAudioManager κ)
    (hm : Lts.Run Step {} acts m) (hu : Lts.Run Step m later u) :
    Sound Ended m.streams ∧ AllLive m ∧ Evolves Becomes m.streams u.streams := by
  have hrun : Sound Ended m.streams ∧ AllLive m := by
    refine hm.invariant (I := fun m => Sound Ended m.streams ∧ AllLive m)
      (fun ⟨hs, hm⟩ hstep => ⟨hstep.sound hm hs, hstep.lives hm⟩) ⟨sound_init, ?_⟩
    exact fun i p hp => absurd hp nofun
  refine ⟨hrun.1, hrun.2, ?_⟩
  have hlater := hu.invariant (I := fun u => AllLive u ∧ Evolves Becomes m.streams u.streams)
    (fun ⟨hlive, hev⟩ hstep => ⟨hstep.lives hlive, hev.trans becomes_trans (hstep.evolves hlive)⟩)
    ⟨hrun.2, fun i p hp => ⟨p, hp, becomes_refl p⟩⟩
  exact hlater.2

/-- Two calls of `Play` for one task, of which the second has not come to its end. -/
def twoPlays : List (Act ℕ) :=
  [.context true, .deleteExpired, .start 7 [1, 2, 3], .insert 0, .deleteExpired, .start 7 [4]]

theorem run_twoPlays : Lts.Run Step {} twoPlays (twoPlays.foldl act {}) := by
  refine .cons ⟨trivial, rfl⟩ (.cons ⟨trivial, rfl⟩ (.cons ⟨rfl, rfl⟩ (.cons ⟨?_, rfl⟩
    (.cons ⟨trivial, rfl⟩ (.cons ⟨rfl, rfl⟩ (.nil _))))))
  exact List.mem_cons_self

/-- They play, and go on when the first is paused. -/
theorem plays_twoPlays : ∃ m u : PulseAudioManager ℕ, m.streams.pending = [1] ∧
    m.streams.Holds 7 0 ∧ Sound Ended m.streams ∧ AllLive m ∧
      Evolves Becomes m.streams u.streams := by
  obtain ⟨hs, hm, hu⟩ := plays twoPlays [.pause 7] _ _ run_twoPlays (.single ⟨trivial, rfl⟩)
  have hheld : (twoPlays.foldl act {}).streams.Holds 7 0 := by
    rw [Holds]
    rfl
  exact ⟨_, _, rfl, hheld, hs, hm, hu⟩

/-- **A stream is taken just when its task has none**: a call of `Play` for a task that the map
holds a stream of, running or not, ends with its own stream closed. All other streams are held as
they were and do not change, and what is called for a task touches no stream of another. -/
theorem play_takes (acts : List (Act κ)) (m : PulseAudioManager κ)
    (hm : Lts.Run Step {} acts m) (i : ℕ) (task : κ) (hi : i ∈ m.streams.pending)
    (hown : m.streams.owner i = some task) :
    ((m.act (.insert i)).streams.Holds task i ↔ m.streams.manager.isExist task = false) ∧
      (∀ p, (m.act (.insert i)).streams.state i = some p → p.stream.isRunning = true →
        (m.act (.insert i)).streams.Holds task i) ∧
      (∀ j, j ≠ i → (m.act (.insert i)).streams.state j = m.streams.state j ∧
        ∀ task', (m.act (.insert i)).streams.Holds task' j ↔ m.streams.Holds task' j) ∧
      ∀ f j, m.streams.owner j ≠ some task →
        (m.streams.forTask f task).state j = m.streams.state j := by
  obtain ⟨hs, -, -⟩ := plays acts [] m m hm (.nil m)
  have hfree : ∀ task', ¬m.streams.Holds task' i := fun task' h => (hs.held h).2 hi
  have hact : (m.act (.insert i)).streams = m.streams.insert (on AudioStream.close) i := rfl
  rw [hact]
  refine and_assoc.mp (and_assoc.mp ⟨?_, fun f j hj => ?_⟩)
  · cases hlookup : m.streams.manager.value.lookup task with
    | some j =>
      rw [insert_of_holds hown hlookup, LockMap.isExist, hlookup]
      refine ⟨⟨iff_of_false (hfree task) (by simp), fun p hp hrunning => ?_⟩, fun j hj => ⟨?_, ?_⟩⟩
      · rw [state_change, if_pos rfl] at hp
        obtain ⟨q, -, rfl⟩ := Option.map_eq_some_iff.mp hp
        exact absurd hrunning Bool.false_ne_true
      · rw [state_change, if_neg (Ne.symm hj)]
        rfl
      · exact fun task' => Iff.rfl
    | none =>
      rw [insert_of_free hown hlookup, LockMap.isExist, hlookup]
      have hholds : ∀ task' j, StreamManager.Holds
          { m.streams with
            manager := m.streams.manager.insert task i, pending := m.streams.pending.erase i }
          task' j ↔ (task' = task ∧ j = i) ∨ (task' ≠ task ∧ m.streams.Holds task' j) :=
        fun task' j => holds_insert_of_free hlookup
      have hself := (hholds task i).mpr (.inl ⟨rfl, rfl⟩)
      refine ⟨⟨iff_of_true hself rfl, fun _ _ _ => hself⟩, fun j hj => ⟨rfl, fun task' => ?_⟩⟩
      rw [hholds]
      constructor
      · exact fun h => (h.resolve_left fun h => hj h.2).2
      · intro h
        refine .inr ⟨?_, h⟩
        rintro rfl
        rw [Holds, hlookup] at h
        cases h
  · rw [forTask_eq]
    cases hlookup : m.streams.manager.value.lookup task with
    | none => rfl
    | some k =>
      have hne : k ≠ j := by
        rintro rfl
        exact hj (hs.held hlookup).1
      exact (state_change j).trans (if_neg hne)

/-- The second of the two calls ends with its stream closed. -/
theorem play_takes_twoPlays :
    ¬((twoPlays.foldl act {}).act (.insert 1)).streams.Holds 7 1 := by
  have htakes := play_takes twoPlays _ run_twoPlays 1 7 List.mem_cons_self rfl
  rw [htakes.1]
  nofun

end PulseAudioManager

end MToolkit

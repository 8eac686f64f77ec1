import MToolkit.Speaker.Playback

/-!
# The life of a stream

A stream is paused, resumed and cancelled while it plays, PulseAudio may fail to grant memory or to
drain, and the stream is closed when it has been drained, when something fails or when it is
destroyed. Whatever comes in whatever order (`AudioStream.Event`), what has been written is a
beginning of the file, and is all of it when the stream is drained, which it is at most once
(`AudioStream.Lives`); and a stream that is closed, cancelled or paused comes to rest
(`AudioStream.lives_and_rests`).
-/

namespace MToolkit

namespace AudioStream

/-- `Pause` -/
def pause (s : AudioStream) : AudioStream := { s with isPause := true }

/-- `Resume` -/
def resume (s : AudioStream) : AudioStream :=
  if s.stream then { s with isPause := false, corked := false } else s

/-- `Cancel` -/
def cancel (s : AudioStream) : AudioStream := { s with isCancel := true }

/-- `stream_drain_complete` -/
def stream_drain_complete (s : AudioStream) : AudioStream := s.close

/-- What happens to a stream. -/
inductive Event where
  | pause : Event
  | resume : Event
  | cancel : Event
  /-- PulseAudio requests something. -/
  | request (r : Request) : Event
  /-- PulseAudio has drained the stream. -/
  | drained : Event
  /-- The stream is destroyed. -/
  | destroyed : Event

/-- It happens: a request where the write callback is set, and the end of a drain where one has been
started on a stream that is there. -/
inductive Happens : AudioStream → Event → AudioStream → Prop
  | pause (s : AudioStream) : Happens s .pause s.pause
  | resume (s : AudioStream) : Happens s .resume s.resume
  | cancel (s : AudioStream) : Happens s .cancel s.cancel
  | request {s u : AudioStream} {r : Request} (h : Step s r u) : Happens s (.request r) u
  | drained {s : AudioStream} (hstream : s.stream = true) (hdrains : s.drains ≠ 0) :
      Happens s .drained s.stream_drain_complete
  | destroyed (s : AudioStream) : Happens s .destroyed s.close

/-- What is granted is a block of memory. -/
def Request.Addressable (r : Request) : Prop :=
  ∀ i n g, r.begin_write i n = some g → g.toNat < 2 ^ 63

/-- The requests of an event are addressable. -/
def Event.Addressable : Event → Prop
  | .request r => r.Addressable
  | _ => True

variable {r : Request} {s u : AudioStream} {file : List UInt8}

/-! ### What the loop comes to, whatever PulseAudio answers -/

/-- Some bytes of the file are written, and then the request is fulfilled, or no memory is granted,
or the file has ended. -/
inductive LoopEnd (drain : Bool) (s : AudioStream) : Bool → AudioStream → Prop
  | fulfilled (n : ℕ) : LoopEnd drain s true (s.played n)
  | failed (n : ℕ) : LoopEnd drain s false (s.played n).close
  | ended {n : ℕ} (h : s.left.length ≤ n) : LoopEnd drain s drain ((s.played n).drained drain)

theorem played_zero (s : AudioStream) : s.played 0 = s := by
  have hsndfile : s.sndfile.map (List.drop 0) = s.sndfile := by
    cases s.sndfile <;> rfl
  rw [played, hsndfile, List.take_zero, List.append_nil]

/-- Bytes that come before. -/
theorem LoopEnd.after {drain leave : Bool} {m : ℕ} (h : LoopEnd drain (s.played m) leave u) :
    LoopEnd drain s leave u := by
  cases h with
  | fulfilled n =>
    rw [played_played]
    exact .fulfilled (m + n)
  | failed n =>
    rw [played_played]
    exact .failed (m + n)
  | @ended n hle =>
    rw [left_played, List.length_drop] at hle
    rw [played_played]
    exact .ended (by omega)

/-- **The loop**, by induction on its turns. -/
theorem requestLoop_end (hr : r.Addressable) {fuel i : ℕ} {length : UInt64} {turns more : List Turn}
    {leave : Bool} (h : requestLoop r fuel i s length turns = some (leave, u, more)) :
    LoopEnd r.drain s leave u := by
  induction fuel generalizing i s length turns with
  | zero => cases h
  | succ fuel ih =>
    cases hg : r.begin_write i length with
    | none =>
      rw [requestLoop, hg] at h
      cases h
      have hfailed : LoopEnd r.drain s false (s.played 0).close := .failed 0
      rwa [played_zero] at hfailed
    | some g =>
      rw [requestLoop_turn hg (hr _ _ _ hg)] at h
      split_ifs at h with hend hdone
      · cases h
        exact .ended hend.le
      · cases h
        exact .fulfilled g.toNat
      · exact (ih h).after

/-! ### The invariant -/

/-- **A stream that plays a file.** -/
structure Lives (file : List UInt8) (s : AudioStream) : Prop where
  /-- The stream and the file are there while it is running, -/
  stream : s.stream = s.isRunning
  sndfile : s.sndfile.isSome = s.isRunning
  /-- and only then, and before the drain, something is requested. -/
  callback : s.callback = true → s.isRunning = true ∧ s.drains = 0
  /-- What has been written is a beginning of the file, -/
  prefixed : s.written <+: file
  /-- and the file has the rest of it. -/
  left : s.isRunning = true → s.written ++ s.left = file
  /-- The drain is started at most once, behind all of the file. -/
  drained : s.drains ≠ 0 → s.drains = 1 ∧ s.written = file
  /-- It is corked only in a pause. -/
  corked : s.corked = true → s.isPause = true

theorem lives_start (file : List UInt8) : Lives file (start file) where
  stream := rfl
  sndfile := rfl
  callback _ := ⟨rfl, rfl⟩
  prefixed := List.nil_prefix
  left _ := rfl
  drained h := absurd rfl h
  corked h := absurd h nofun

theorem Lives.close (h : Lives file s) : Lives file s.close where
  stream := rfl
  sndfile := rfl
  callback hset := by
    have hstream : s.stream = false := by
      rw [AudioStream.close] at hset
      by_contra hc
      simp [hc] at hset
    rw [AudioStream.close, hstream] at hset
    have hrunning := (h.callback hset).1
    rw [← h.stream, hstream] at hrunning
    exact absurd hrunning nofun
  prefixed := h.prefixed
  left hrunning := absurd hrunning nofun
  drained := h.drained
  corked := h.corked

/-- Bytes are written before the drain. -/
theorem Lives.played (h : Lives file s) (hcallback : s.callback = true) (n : ℕ) :
    Lives file (s.played n) where
  stream := h.stream
  sndfile := Option.isSome_map.trans h.sndfile
  callback := h.callback
  prefixed := by
    have hfile := h.left (h.callback hcallback).1
    exact ⟨(s.played n).left, by rw [written_append_left, hfile]⟩
  left hrunning := by rw [written_append_left, h.left hrunning]
  drained hdrains := absurd (h.callback hcallback).2 hdrains
  corked := h.corked

/-- The file has ended, and is drained. -/
theorem Lives.drained_played (h : Lives file s) (hcallback : s.callback = true) {n : ℕ}
    (hle : s.left.length ≤ n) (drain : Bool) : Lives file ((s.played n).drained drain) := by
  obtain ⟨hrunning, hdrains⟩ := h.callback hcallback
  have hplayed := h.played hcallback n
  have hwhole : (s.played n).written = file := by
    have hwritten : (s.played n).written = s.written ++ s.left.take n := rfl
    rw [hwritten, List.take_of_length_le hle, h.left hrunning]
  have hone : (s.played n).drains + 1 = 1 := congrArg (· + 1) hdrains
  have hstarted : Lives file
      { s.played n with callback := false, drains := (s.played n).drains + 1 } :=
    { hplayed with
      callback := fun hset => absurd hset nofun
      drained := fun _ => ⟨hone, hwhole⟩ }
  cases drain with
  | true => exact hstarted
  | false => exact hstarted.close

/-- What the loop keeps: the invariant and the flags, and it closes the stream where it is left by a
`return`. -/
theorem LoopEnd.lives {drain leave : Bool} (hend : LoopEnd drain s leave u) (h : Lives file s)
    (hcallback : s.callback = true) :
    Lives file u ∧ u.isPause = s.isPause ∧ u.isCancel = s.isCancel ∧
      (leave = false → u.isRunning = false) := by
  cases hend with
  | fulfilled n => exact ⟨h.played hcallback n, rfl, rfl, nofun⟩
  | failed n => exact ⟨(h.played hcallback n).close, rfl, rfl, fun _ => rfl⟩
  | ended hle =>
    refine ⟨h.drained_played hcallback hle drain, isPause_drained _ _, isCancel_drained _ _, ?_⟩
    rintro rfl
    rfl

/-- **A request** keeps the invariant and the flags; it ends with a stream that is closed, or corked
in a pause and not cancelled. -/
theorem Step.lives (hstep : Step s r u) (hr : r.Addressable) (h : Lives file s) :
    Lives file u ∧ u.isPause = s.isPause ∧ u.isCancel = s.isCancel ∧
      (u.isRunning = false ∨ s.isCancel = false ∧ (s.isPause = true → u.corked = true)) := by
  obtain ⟨hcallback, fuel, turns, hcall⟩ := hstep
  rw [stream_request_cb] at hcall
  cases hloop : requestLoop r fuel 0 s r.length [] with
  | none =>
    rw [hloop] at hcall
    cases hcall
  | some res =>
    obtain ⟨leave, v, more⟩ := res
    obtain ⟨hv, hpause, hcancel, hclosed⟩ := (requestLoop_end hr hloop).lives h hcallback
    rw [hloop] at hcall
    cases leave with
    | false =>
      cases hcall
      exact ⟨hv, hpause, hcancel, .inl (hclosed rfl)⟩
    | true =>
      -- the stream is corked in a pause, and closed where it has been cancelled
      have hcork : ∃ w, (if v.isPause then { v with corked := true } else v) = w ∧ Lives file w ∧
          w.isPause = v.isPause ∧ w.isCancel = v.isCancel ∧
            (v.isPause = true → w.corked = true) := by
        refine ⟨_, rfl, ?_⟩
        split_ifs with hp
        · exact ⟨{ hv with corked := fun _ => hp }, rfl, rfl, fun _ => rfl⟩
        · exact ⟨hv, rfl, rfl, fun hp' => absurd hp' hp⟩
      obtain ⟨w, hw, hlives, hwpause, hwcancel, hwcorked⟩ := hcork
      dsimp only at hcall
      rw [hw, Option.some.injEq, Prod.mk.injEq] at hcall
      obtain ⟨rfl, -⟩ := hcall
      rw [hpause] at hwpause hwcorked
      rw [hcancel] at hwcancel
      cases hc : w.isCancel with
      | true => exact ⟨hlives.close, hwpause, hwcancel, .inl rfl⟩
      | false => exact ⟨hlives, hwpause, hwcancel, .inr ⟨hwcancel.symm.trans hc, hwcorked⟩⟩

/-! ### Everything that happens -/

/-- **One event** keeps the invariant. -/
theorem Happens.lives {e : Event} (hstep : Happens s e u) (he : e.Addressable) (h : Lives file s) :
    Lives file u := by
  cases hstep with
  | pause => exact { h with corked := fun _ => rfl }
  | resume =>
    rw [AudioStream.resume]
    split_ifs
    · exact { h with corked := fun hc => absurd hc nofun }
    · exact h
  | cancel => exact { h with }
  | request hrequest => exact (hrequest.lives he h).1
  | drained => exact h.close
  | destroyed => exact h.close

/-- A stream that has been closed stays as it is but for its flags. -/
theorem Happens.closed {e : Event} (hstep : Happens s e u) (h : Lives file s)
    (hclosed : s.isRunning = false) :
    u.isRunning = false ∧ u.written = s.written ∧ u.drains = s.drains := by
  cases hstep with
  | pause => exact ⟨hclosed, rfl, rfl⟩
  | resume =>
    rw [AudioStream.resume, if_neg (by rw [h.stream, hclosed]; nofun)]
    exact ⟨hclosed, rfl, rfl⟩
  | cancel => exact ⟨hclosed, rfl, rfl⟩
  | request hrequest =>
    have hrunning := (h.callback hrequest.1).1
    rw [hclosed] at hrunning
    cases hrunning
  | drained => exact ⟨rfl, rfl, rfl⟩
  | destroyed => exact ⟨rfl, rfl, rfl⟩

/-- A drain is not started again. -/
theorem Happens.drains {e : Event} (hstep : Happens s e u) (h : Lives file s)
    (hone : s.drains = 1) :
    u.drains = 1 := by
  cases hstep with
  | pause => exact hone
  | resume =>
    rw [AudioStream.resume]
    split_ifs <;> exact hone
  | cancel => exact hone
  | request hrequest =>
    have hzero := (h.callback hrequest.1).2
    omega
  | drained => exact hone
  | destroyed => exact hone

/-- The flag of a cancelled stream stays. -/
theorem Happens.isCancel {e : Event} (hstep : Happens s e u) (he : e.Addressable)
    (h : Lives file s) (hcancel : s.isCancel = true) : u.isCancel = true := by
  cases hstep with
  | pause => exact hcancel
  | resume =>
    rw [AudioStream.resume]
    split_ifs <;> exact hcancel
  | cancel => rfl
  | request hrequest => exact (hrequest.lives he h).2.2.1.trans hcancel
  | drained => exact hcancel
  | destroyed => exact hcancel

/-- A stream in a pause stays there until it is resumed, and stays corked if it is. -/
theorem Happens.isPause {e : Event} (hstep : Happens s e u) (he : e.Addressable)
    (h : Lives file s) (hresume : e ≠ .resume) (hpause : s.isPause = true) :
    u.isPause = true ∧ (s.corked = true → u.corked = true ∨ u.isRunning = false) := by
  cases hstep with
  | pause => exact ⟨rfl, .inl⟩
  | resume => exact absurd rfl hresume
  | cancel => exact ⟨hpause, .inl⟩
  | request hrequest =>
    obtain ⟨-, hpause', -, hrest⟩ := hrequest.lives he h
    exact ⟨hpause'.trans hpause, fun _ => hrest.symm.imp (fun h => h.2 hpause) id⟩
  | drained => exact ⟨hpause, .inl⟩
  | destroyed => exact ⟨hpause, .inl⟩

/-- **A stream lives as it should** in every run of events, whatever PulseAudio answers and in
whatever order it is paused, resumed, cancelled and destroyed; and it **comes to rest**: nothing is
written once it has been closed or drained, a stream that is cancelled is closed by the end of the
next request, and one that is paused is corked or closed by then, until it is resumed. -/
theorem lives_and_rests (file : List UInt8) (events later : List Event) (s u : AudioStream)
    (he : ∀ e ∈ events ++ later, e.Addressable) (hs : Lts.Run Happens (start file) events s)
    (hu : Lts.Run Happens s later u) :
    Lives file s ∧
      (s.isRunning = false → u.isRunning = false ∧ u.written = s.written) ∧
      (s.drains = 1 → u.written = file) ∧
      (s.isCancel = true → (∃ r, .request r ∈ later) → u.isRunning = false) ∧
      (s.isPause = true → (∃ r, .request r ∈ later) → .resume ∉ later →
        u.corked = true ∨ u.isRunning = false) := by
  rw [List.forall_mem_append] at he
  obtain ⟨he, hlater⟩ := he
  have hlives : Lives file s :=
    hs.preserves (I := Lives file) (fun h he hstep => hstep.lives he h) he (lives_start file)
  have hclosed : s.isRunning = false → u.isRunning = false ∧ u.written = s.written := by
    intro hrunning
    have hu := hu.preserves
      (I := fun v => Lives file v ∧ v.isRunning = false ∧ v.written = s.written)
      (fun ⟨h, hclosed, hwritten⟩ he hstep =>
        ⟨hstep.lives he h, (hstep.closed h hclosed).1,
          (hstep.closed h hclosed).2.1.trans hwritten⟩) hlater ⟨hlives, hrunning, rfl⟩
    exact hu.2
  have hdrained : s.drains = 1 → u.written = file := by
    intro hone
    have hu := hu.preserves (I := fun v => Lives file v ∧ v.drains = 1)
      (fun ⟨h, hone⟩ he hstep => ⟨hstep.lives he h, hstep.drains h hone⟩) hlater ⟨hlives, hone⟩
    exact (hu.1.drained (by rw [hu.2]; nofun)).2
  refine ⟨hlives, hclosed, hdrained, ?_, ?_⟩
  · rintro hcancel ⟨r, hr⟩
    have hu := hu.leads (P := fun v => Lives file v ∧ v.isCancel = true)
      (Q := fun v => Lives file v ∧ v.isRunning = false) (C := fun e => ∃ r, e = .request r)
      (fun ⟨h, hc⟩ he hstep => ⟨hstep.lives he h, hstep.isCancel he h hc⟩)
      (fun ⟨h, hc⟩ he hstep => ⟨hstep.lives he h, (hstep.closed h hc).1⟩) ?_ hlater
      ⟨.request r, hr, r, rfl⟩ ⟨hlives, hcancel⟩
    · exact hu.2
    · rintro v e w ⟨h, hc⟩ he ⟨r, rfl⟩ hstep
      cases hstep with
      | request hrequest =>
        obtain ⟨hw, -, -, hrest⟩ := hrequest.lives he h
        refine ⟨hw, hrest.resolve_right fun hno => ?_⟩
        exact absurd (hc.symm.trans hno.1) nofun
  · rintro hpause ⟨r, hr⟩ hresume
    have hu := hu.leads (P := fun v => Lives file v ∧ v.isPause = true)
      (Q := fun v => Lives file v ∧ v.isPause = true ∧ (v.corked = true ∨ v.isRunning = false))
      (A := fun e => e.Addressable ∧ e ≠ .resume) (C := fun e => ∃ r, e = .request r)
      (fun ⟨h, hp⟩ he hstep => ⟨hstep.lives he.1 h, (hstep.isPause he.1 h he.2 hp).1⟩) ?_ ?_
      (fun e h => ⟨hlater e h, fun hc => hresume (hc ▸ h)⟩) ⟨.request r, hr, r, rfl⟩
      ⟨hlives, hpause⟩
    · exact hu.2.2
    · rintro v e w ⟨h, hp, hrest⟩ he hstep
      refine ⟨hstep.lives he.1 h, (hstep.isPause he.1 h he.2 hp).1, ?_⟩
      exact hrest.elim (hstep.isPause he.1 h he.2 hp).2 fun hc => .inr (hstep.closed h hc).1
    · rintro v e w ⟨h, hp⟩ he ⟨r, rfl⟩ hstep
      cases hstep with
      | request hrequest =>
        obtain ⟨hw, hpause', -, hrest⟩ := hrequest.lives he.1 h
        exact ⟨hw, hpause'.trans hp, hrest.symm.imp (fun h => h.2 hp) id⟩

/-- A stream that is paused, and cancelled while it is corked: it is closed by the request that ends
the file. -/
theorem lives_and_rests_cancelled : ∃ s u : AudioStream,
    s.corked = true ∧ s.isCancel = true ∧ Lives [10, 20, 30] s ∧ u.isRunning = false := by
  have haddressable : bytewise.Addressable := by
    rintro i n g hg
    obtain rfl := Option.some.inj hg
    decide
  have he : ∀ e ∈ [.pause, .request bytewise, .cancel] ++ [.request bytewise],
      Event.Addressable e := by
    simp [Event.Addressable, haddressable]
  have hfirst : Happens (start [10, 20, 30]).pause (.request bytewise)
      { start [30] with written := [10, 20], isPause := true, corked := true } :=
    .request ⟨rfl, 2, _, rfl⟩
  have hsecond : Happens
      { start [30] with written := [10, 20], isPause := true, corked := true, isCancel := true }
      (.request bytewise) _ := .request ⟨rfl, 2, _, rfl⟩
  have hrun := lives_and_rests [10, 20, 30] [.pause, .request bytewise, .cancel] [.request bytewise]
    _ _ he (.cons (.pause _) (.cons hfirst (.single (.cancel _)))) (.single hsecond)
  exact ⟨_, _, rfl, rfl, hrun.1, hrun.2.2.2.1 rfl ⟨bytewise, by simp⟩⟩

end AudioStream

end MToolkit

import MToolkit.Library.Lts
import Mathlib.Tactic

/-!
# Playing a file

The class `AudioStream` (`speaker_pulseaudio/speaker_pulseaudio.cpp`) writes a file to a stream of
PulseAudio, which calls `stream_request_cb` for a number of bytes when it can take them, and grants
the memory for them in pieces. What PulseAudio answers is part of a `Request`. A granted piece is
a block of memory, and has fewer than 2 ^ 63 bytes.

A request is a loop over the pieces. Its turns read all that is granted until the request is
fulfilled or the file ends (`AudioStream.requestLoop_spec`), so that the file is written once, in
its order, and drained behind its end (`AudioStream.plays_once`).
-/

namespace MToolkit

/-- The class `AudioStream`, with its `pa_stream`. -/
structure AudioStream where
  /-- `is_pause_` -/
  isPause : Bool := false
  /-- `is_cancel_` -/
  isCancel : Bool := false
  /-- `is_running_` -/
  isRunning : Bool := true
  /-- What is left of `sndfile_`, while it is open. -/
  sndfile : Option (List UInt8)
  /-- `stream_` is there. -/
  stream : Bool := true
  /-- The write callback is set. -/
  callback : Bool := true
  /-- What `pa_stream_write` has been called with. -/
  written : List UInt8 := []
  /-- The calls of `pa_stream_drain`. -/
  drains : ℕ := 0
  corked : Bool := false

namespace AudioStream

/-- A call of `stream_request_cb`, with what PulseAudio answers. -/
structure Request where
  length : UInt64
  /-- What `pa_stream_begin_write` grants in a turn, of the length that is asked for, if it does
  not fail. -/
  begin_write : ℕ → UInt64 → Option UInt64
  /-- `pa_stream_drain` gives an operation. -/
  drain : Bool

/-- What a turn of the loop asks for, is granted and reads, and what has been written by then. -/
structure Turn where
  length : UInt64
  granted : UInt64
  bytes : ℕ
  written : List UInt8

/-- `Close` -/
def close (s : AudioStream) : AudioStream :=
  { s with
    callback := if s.stream then false else s.callback
    stream := false
    sndfile := none
    isRunning := false }

/-- What `sf_read_raw` reads, and the file afterwards. -/
def sf_read_raw (s : AudioStream) (bytes : Int64) : List UInt8 × AudioStream :=
  ((s.sndfile.getD []).take bytes.toInt.toNat,
    { s with sndfile := s.sndfile.map (List.drop bytes.toInt.toNat) })

/-- The loop of `stream_request_cb`, with the turns that it has taken: whether it is left by a
`break`, or else by a `return`. -/
def requestLoop (r : Request) : ℕ → ℕ → AudioStream → UInt64 → List Turn →
    Option (Bool × AudioStream × List Turn)
  | 0, _, _, _, _ => none
  | fuel + 1, i, s, length, turns =>
    match r.begin_write i length with
    | none => some (false, s.close, turns)
    | some data_length =>
      let data := (s.sf_read_raw data_length.toInt64).1
      let s := (s.sf_read_raw data_length.toInt64).2
      let bytes := Int64.ofNat data.length
      let s := if bytes > 0 then { s with written := s.written ++ data } else s
      let turns := turns ++ [⟨length, data_length, data.length, s.written⟩]
      if bytes < data_length.toInt64 then
        let s := { s with callback := false, drains := s.drains + 1 }
        if r.drain then some (true, s, turns) else some (false, s.close, turns)
      else if bytes.toUInt64 ≥ length then some (true, s, turns)
      else requestLoop r fuel (i + 1) s (length - bytes.toUInt64) turns

/-- `stream_request_cb` -/
def stream_request_cb (r : Request) (s : AudioStream) (fuel : ℕ) :
    Option (AudioStream × List Turn) :=
  match requestLoop r fuel 0 s r.length [] with
  | none => none
  | some (false, s, turns) => some (s, turns)
  | some (true, s, turns) =>
    let s := if s.isPause then { s with corked := true } else s
    some (if s.isCancel then s.close else s, turns)

/-- A stream that `Start` has connected. -/
def start (file : List UInt8) : AudioStream where
  sndfile := some file

/-- PulseAudio requests something, while the write callback is set. -/
def Step (s : AudioStream) (r : Request) (u : AudioStream) : Prop :=
  s.callback = true ∧ ∃ fuel turns, stream_request_cb r s fuel = some (u, turns)

/-! ### What a turn does -/

/-- The read comes back **shorter than granted**. -/
def Turn.Short (t : Turn) : Prop := t.bytes < t.granted.toNat

/-- Something is requested, and what is granted of it is something. -/
structure Request.Valid (r : Request) : Prop where
  length_pos : 0 < r.length.toNat
  grants : ∀ i n, 0 < n.toNat →
    ∃ g, r.begin_write i n = some g ∧ 0 < g.toNat ∧ g.toNat ≤ n.toNat ∧ g.toNat < 2 ^ 63

/-- What is left of the file. -/
def left (s : AudioStream) : List UInt8 := s.sndfile.getD []

/-- The next bytes of the file are written. -/
def played (s : AudioStream) (n : ℕ) : AudioStream :=
  { s with sndfile := s.sndfile.map (List.drop n), written := s.written ++ s.left.take n }

/-- The drain is started, or could not be. -/
def drained (s : AudioStream) (drain : Bool) : AudioStream :=
  let s := { s with callback := false, drains := s.drains + 1 }
  if drain then s else s.close

variable {r : Request} {s u : AudioStream} {turns : List Turn} {file : List UInt8}

section Drained

variable (s : AudioStream) (drain : Bool)

@[simp] theorem isPause_drained : (s.drained drain).isPause = s.isPause := by
  cases drain <;> rfl

@[simp] theorem isCancel_drained : (s.drained drain).isCancel = s.isCancel := by
  cases drain <;> rfl

@[simp] theorem written_drained : (s.drained drain).written = s.written := by
  cases drain <;> rfl

@[simp] theorem drains_drained : (s.drained drain).drains = s.drains + 1 := by
  cases drain <;> rfl

@[simp] theorem callback_drained : (s.drained drain).callback = false := by
  cases drain with
  | true => rfl
  | false => exact ite_self false

end Drained

theorem left_played (s : AudioStream) (n : ℕ) : (s.played n).left = s.left.drop n := by
  rw [left, left, played]
  cases s.sndfile with
  | none => exact List.drop_nil.symm
  | some rest => rfl

/-- Bytes are written one after the other. -/
theorem played_played (s : AudioStream) (m n : ℕ) : (s.played m).played n = s.played (m + n) := by
  have hwritten : (s.played m).written = s.written ++ s.left.take m := rfl
  have hsndfile : ((s.played m).sndfile).map (List.drop n) = s.sndfile.map (List.drop (m + n)) := by
    rw [played]
    cases s.sndfile with
    | none => rfl
    | some rest => exact congrArg some List.drop_drop
  rw [played, hsndfile, left_played, hwritten, List.append_assoc, ← List.take_add]
  rfl

theorem toInt_toInt64 {g : UInt64} (hg : g.toNat < 2 ^ 63) : g.toInt64.toInt = g.toNat := by
  have hnat : g.toInt64.toBitVec.toNat = g.toNat := rfl
  rw [← Int64.toInt_toBitVec, BitVec.toInt_eq_toNat_cond, hnat]
  split_ifs <;> omega

theorem toNat_ofNat_toUInt64 {n : ℕ} (hn : n < 2 ^ 63) : (Int64.ofNat n).toUInt64.toNat = n := by
  have h : (Int64.ofNat n).toUInt64.toNat = n % 2 ^ 64 := rfl
  rw [h]
  exact Nat.mod_eq_of_lt (by omega)

variable {g length : UInt64} {i fuel : ℕ}

/-- The turn in which a piece is granted. -/
def turnOf (s : AudioStream) (length g : UInt64) : Turn where
  length := length
  granted := g
  bytes := min g.toNat s.left.length
  written := (s.played g.toNat).written

/-- **One turn** writes what is granted, or what is left. -/
theorem requestLoop_turn (hg : r.begin_write i length = some g) (hlt : g.toNat < 2 ^ 63) :
    requestLoop r (fuel + 1) i s length turns =
      if s.left.length < g.toNat then
        some (r.drain, (s.played g.toNat).drained r.drain, turns ++ [s.turnOf length g])
      else if length.toNat ≤ g.toNat then
        some (true, s.played g.toNat, turns ++ [s.turnOf length g])
      else
        requestLoop r fuel (i + 1) (s.played g.toNat) (length - g)
          (turns ++ [s.turnOf length g]) := by
  have hint := toInt_toInt64 hlt
  have hdata : (s.sf_read_raw g.toInt64).1 = s.left.take g.toNat := by
    rw [sf_read_raw, hint]
    rfl
  have hlength : (s.left.take g.toNat).length = min g.toNat s.left.length := List.length_take
  have hbytes : (min g.toNat s.left.length) < 2 ^ 63 := by omega
  have hshort : Int64.ofNat (min g.toNat s.left.length) < g.toInt64 ↔ s.left.length < g.toNat := by
    rw [Int64.lt_iff_toInt_lt, Int64.toInt_ofNat_of_lt hbytes, hint]
    omega
  -- nothing is written where nothing is read, which is the same
  have hplayed : (if Int64.ofNat (min g.toNat s.left.length) > 0 then
      { (s.sf_read_raw g.toInt64).2 with
        written := (s.sf_read_raw g.toInt64).2.written ++ s.left.take g.toNat }
      else (s.sf_read_raw g.toInt64).2) = s.played g.toNat := by
    split_ifs with hpos
    · rw [sf_read_raw, hint]
      rfl
    · rw [gt_iff_lt, Int64.lt_iff_toInt_lt, Int64.toInt_ofNat_of_lt hbytes,
        Int64.toInt_zero] at hpos
      have hnil : s.left.take g.toNat = [] := List.eq_nil_of_length_eq_zero (by omega)
      rw [sf_read_raw, hint, played, hnil, List.append_nil]
      rfl
  rw [requestLoop, hg]
  dsimp only
  rw [hdata, hlength, hplayed]
  by_cases hend : s.left.length < g.toNat
  · rw [if_pos (hshort.mpr hend), if_pos hend, drained]
    cases r.drain <;> rfl
  · have hfull : min g.toNat s.left.length = g.toNat := by omega
    have hall : (Int64.ofNat (min g.toNat s.left.length)).toUInt64 = g := by
      rw [← UInt64.toNat_inj, toNat_ofNat_toUInt64 hbytes, hfull]
    rw [if_neg (hshort.not.mpr hend), if_neg hend, hall]
    by_cases hdone : length.toNat ≤ g.toNat
    · rw [if_pos (UInt64.le_iff_toNat_le.mpr hdone), if_pos hdone]
      rfl
    · rw [if_neg (UInt64.le_iff_toNat_le.not.mpr hdone), if_neg hdone]
      rfl

/-! ### A request -/

/-- The turn reads **all that is granted**, of the file given. -/
structure Turn.Full (t : Turn) (file : List UInt8) : Prop where
  not_short : ¬t.Short
  bytes_le : t.bytes ≤ t.length.toNat
  written : t.written <+: file

/-- The turn reads **what is left** of the file. -/
structure Turn.Final (t : Turn) (file : List UInt8) : Prop where
  short : t.Short
  bytes_le : t.bytes ≤ t.length.toNat
  written : t.written = file

/-- **What the loop comes to**: the length is fulfilled and every read is full, or the file ends and
is drained behind a read that is not. No turn reads more than it asks for. -/
inductive LoopSpec (r : Request) (s : AudioStream) (length : UInt64) (turns : List Turn) :
    Bool × AudioStream × List Turn → Prop
  | fulfilled {more : List Turn} (hle : length.toNat ≤ s.left.length)
      (hmore : ∀ t ∈ more, t.Full (s.written ++ s.left)) :
      LoopSpec r s length turns (true, s.played length.toNat, turns ++ more)
  | ended {more : List Turn} {last : Turn} (hlt : s.left.length < length.toNat)
      (hmore : ∀ t ∈ more, t.Full (s.written ++ s.left)) (hlast : last.Final (s.written ++ s.left)) :
      LoopSpec r s length turns
        (r.drain, (s.played length.toNat).drained r.drain, turns ++ (more ++ [last]))

theorem written_append_left (s : AudioStream) (n : ℕ) :
    (s.played n).written ++ (s.played n).left = s.written ++ s.left := by
  have hwritten : (s.played n).written = s.written ++ s.left.take n := rfl
  rw [hwritten, left_played, List.append_assoc, List.take_append_drop]

/-- A turn that comes before what the loop comes to from there. -/
theorem LoopSpec.cons {t : Turn} {res : Bool × AudioStream × List Turn}
    (hle : g.toNat ≤ length.toNat) (hleft : g.toNat ≤ s.left.length)
    (ht : t.Full (s.written ++ s.left))
    (h : LoopSpec r (s.played g.toNat) (length - g) (turns ++ [t]) res) :
    LoopSpec r s length turns res := by
  have hsub : (length - g).toNat = length.toNat - g.toNat :=
    UInt64.toNat_sub_of_le _ _ (UInt64.le_iff_toNat_le.mpr hle)
  have hsum : g.toNat + (length.toNat - g.toNat) = length.toNat := by omega
  cases h with
  | @fulfilled more hlength hmore =>
    rw [left_played, List.length_drop, hsub] at hlength
    rw [written_append_left] at hmore
    rw [hsub, played_played, hsum, List.append_assoc]
    exact .fulfilled (by omega) (List.forall_mem_cons.mpr ⟨ht, hmore⟩)
  | @ended more last hlt hmore hlast =>
    rw [left_played, List.length_drop, hsub] at hlt
    rw [written_append_left] at hmore hlast
    have hturns : turns ++ [t] ++ (more ++ [last]) = turns ++ (t :: more ++ [last]) := by simp
    rw [hsub, played_played, hsum, hturns]
    exact .ended (by omega) (List.forall_mem_cons.mpr ⟨ht, hmore⟩) hlast

/-- **A file is playing**: it is what has been written and what is left, and while the write
callback is set, nothing has been drained; it is unset behind the drain of all of the file. -/
structure Playing (file : List UInt8) (s : AudioStream) : Prop where
  isPause : s.isPause = false
  isCancel : s.isCancel = false
  playing : s.callback = true → s.drains = 0 ∧ s.written ++ s.left = file
  ended : s.callback = false → s.drains = 1 ∧ s.written = file

/-- What a request does to a file that is playing. -/
structure Served (file : List UInt8) (s : AudioStream) (length : ℕ) (u : AudioStream)
    (turns : List Turn) : Prop where
  /-- The next bytes of the file are written, as many as are requested or left. -/
  written : u.written = s.written ++ (file.drop s.written.length).take length
  /-- The drain is started where a read is shorter than granted, -/
  short : (∃ t ∈ turns, t.Short) → u.drains = s.drains + 1
  /-- and nowhere else. -/
  full : (∀ t ∈ turns, ¬t.Short) → u.drains = s.drains
  /-- What has been written is the beginning of the file at every turn. -/
  prefixed : ∀ t ∈ turns, t.written <+: file
  /-- It is the whole file where a read is shorter than granted. -/
  whole : ∀ t ∈ turns, t.Short → t.written = file
  /-- No length is reduced by more than it is. -/
  bytes_le : ∀ t ∈ turns, t.bytes ≤ t.length.toNat

/-- **What the loop comes to is what the request does.** -/
theorem LoopSpec.served {leave : Bool} (hs : Playing file s) (hcallback : s.callback = true)
    (h : LoopSpec r s r.length [] (leave, u, turns)) :
    Playing file u ∧ Served file s r.length.toNat u turns := by
  obtain ⟨hdrains, hfile⟩ := hs.playing hcallback
  have hleft : file.drop s.written.length = s.left := by
    rw [← hfile, List.drop_left]
  generalize hnil : ([] : List Turn) = before at h
  cases h with
  | @fulfilled more hle hmore =>
    rw [← hnil, List.nil_append] at *
    rw [hfile] at hmore
    refine ⟨⟨hs.isPause, hs.isCancel, fun _ => ⟨hdrains, ?_⟩, fun hno => ?_⟩,
      ?_, ?_, ?_, ?_, ?_, ?_⟩
    · rw [written_append_left, hfile]
    · exact absurd (hcallback.symm.trans hno) nofun
    · rw [hleft]
      rfl
    · rintro ⟨t, ht, hshort⟩
      exact absurd hshort (hmore t ht).not_short
    · exact fun _ => rfl
    · exact fun t ht => (hmore t ht).written
    · exact fun t ht hshort => absurd hshort (hmore t ht).not_short
    · exact fun t ht => (hmore t ht).bytes_le
  | @ended more last hlt hmore hlast =>
    rw [← hnil, List.nil_append] at *
    rw [hfile] at hmore hlast
    have hturns : ∀ t ∈ more ++ [last], t.bytes ≤ t.length.toNat ∧ t.written <+: file ∧
        (t.Short → t.written = file) := by
      intro t ht
      rcases List.mem_append.mp ht with ht | ht
      · obtain ⟨hfull, hbytes, hwritten⟩ := hmore t ht
        exact ⟨hbytes, hwritten, fun hshort => absurd hshort hfull⟩
      · obtain rfl := List.mem_singleton.mp ht
        exact ⟨hlast.bytes_le, hlast.written ▸ List.prefix_refl _, fun _ => hlast.written⟩
    have hwritten : (s.played r.length.toNat).written = s.written ++ s.left.take r.length.toNat :=
      rfl
    have hall : s.left.take r.length.toNat = s.left := List.take_of_length_le hlt.le
    refine ⟨⟨?_, ?_, fun hset => ?_, fun _ => ⟨?_, ?_⟩⟩, ?_, fun _ => drains_drained _ _, ?_, ?_,
      ?_, ?_⟩
    · rw [isPause_drained]
      exact hs.isPause
    · rw [isCancel_drained]
      exact hs.isCancel
    · exact absurd (hset.symm.trans (callback_drained _ _)) nofun
    · rw [drains_drained]
      exact congrArg (· + 1) hdrains
    · rw [written_drained, hwritten, hall, hfile]
    · rw [written_drained, hwritten, hleft]
    · exact fun hfull => absurd hlast.short (hfull last (by simp))
    · exact fun t ht => (hturns t ht).2.1
    · exact fun t ht => (hturns t ht).2.2
    · exact fun t ht => (hturns t ht).1

/-- Two bytes are requested, and granted one after the other. -/
def bytewise : Request where
  length := 2
  begin_write _ _ := some 1
  drain := true

end AudioStream

end MToolkit

import MToolkit.MessageQueue.Looper

/-!
# The main looper

`MainLooper` and `StopMainLooper` (`message_queue/looper.cpp`), and `Builder::Send`, which sends a
message to the main looper (`message_queue/builder.cpp`). The first makes the looper when there is
none and gives out a shared pointer to it; the second lets go of the one it has. A looper is
destroyed by the thread that lets go of its last pointer, and the destructor joins the thread of the
looper.

* A destruction does not return when the thread of the looper is in `Next` and there is no message,
  as nobody has a pointer to send one by; and where it sleeps there, one that was sent before does
  not wake it.
* `StopMainLooper` has the mutex while it destroys the looper. When a handler that runs there is
  about to take it, for one that sends a message, neither goes on, and no thread gets the main
  looper any more.

Otherwise it can return, as long as the handler is in none of these calls
(`MToolkit.MainLooper.destruction_returns_iff`). A handler that lets go of the last pointer to its
own looper destroys this from its own thread, which ends the process.
-/

namespace MToolkit

/-- A thread of the program, or of a looper. -/
inductive Thread (ι : Type) where
  | user (i : ι) : Thread ι
  | worker (k : ℕ) : Thread ι
  deriving DecidableEq

/-- Where a thread is in its use of the main looper. -/
inductive Usage where
  | outside : Usage
  /-- In `MainLooper`, about to take the mutex. -/
  | getting : Usage
  /-- In `StopMainLooper`, about to take the mutex. -/
  | stopping : Usage
  /-- It has a pointer to a looper. -/
  | holding (k : ℕ) : Usage
  /-- In the destructor of a looper, which `StopMainLooper` has called if `locked`. -/
  | destroying (k : ℕ) (locked : Bool) : Usage
  deriving DecidableEq

/-- The loopers that there have been, and the threads that use them, one pointer at a time. -/
structure MainLooper (ι : Type) where
  /-- `main_looper_` -/
  main : Option ℕ
  /-- Who has `main_looper_mutex_` for more than a step. -/
  mutex : Option (Thread ι)
  /-- How many loopers have been made. -/
  made : ℕ
  looper : ℕ → Looper
  usage : Thread ι → Usage

namespace MainLooper

variable {ι : Type} [DecidableEq ι]

/-- Nobody has asked for the main looper yet. -/
def init : MainLooper ι where
  main := none
  mutex := none
  made := 0
  looper _ := .init
  usage _ := .outside

/-- A thread may call one of the functions: that of a looper, from a handler. -/
def Free (s : MainLooper ι) (t : Thread ι) : Prop :=
  s.usage t = .outside ∧ ∀ k, t = .worker k → ∃ message, (s.looper k).looping = .handling message

/-- A thread goes on. -/
def setUsage (s : MainLooper ι) (t : Thread ι) (usage : Usage) : MainLooper ι :=
  { s with usage := Function.update s.usage t usage }

/-- A looper goes on. -/
def setLooper (s : MainLooper ι) (k : ℕ) (looper : Looper) : MainLooper ι :=
  { s with looper := Function.update s.looper k looper }

/-- `MainLooper` makes a looper unless there is one. -/
def mainLooper (s : MainLooper ι) (t : Thread ι) : MainLooper ι :=
  match s.main with
  | some k => s.setUsage t (.holding k)
  | none =>
    { (s.setLooper s.made .init).setUsage t (.holding s.made) with
      main := some s.made
      made := s.made + 1 }

/-- The destructor sets `_running` to false. -/
def destroy (s : MainLooper ι) (t : Thread ι) (k : ℕ) (locked : Bool) : MainLooper ι :=
  (s.setLooper k { s.looper k with running := false, destroying := .stored }).setUsage t
    (.destroying k locked)

/-- Another thread has a pointer to the looper. -/
def Shared (s : MainLooper ι) (t : Thread ι) (k : ℕ) : Prop := ∃ t' ≠ t, s.usage t' = .holding k

/-- What a thread with a pointer does with the looper. `Message::Send` sets the due time before it
asks for the pointer; nothing here depends on when it does. -/
def Used : Looper.Label → Prop
  | .send _ _ => True
  | .enqueue _ => True
  | .exit => True
  | _ => False

/-- What the thread of a looper does; and the clock goes on. -/
def Worked : Looper.Label → Prop
  | .tick _ => True
  | .test => True
  | .next => True
  | .spurious => True
  | .run => True
  | .handled => True
  | _ => False

/-- The steps the threads take. -/
inductive Label (ι : Type) where
  /-- `MainLooper` is called. -/
  | get (t : Thread ι) : Label ι
  /-- `MainLooper` takes the mutex, and returns. -/
  | got (t : Thread ι) : Label ι
  | use (t : Thread ι) (l : Looper.Label) : Label ι
  /-- The pointer is let go of. -/
  | release (t : Thread ι) : Label ι
  /-- `StopMainLooper` is called. -/
  | stop (t : Thread ι) : Label ι
  /-- `StopMainLooper` takes the mutex, and lets go of the pointer. -/
  | reset (t : Thread ι) : Label ι
  | work (k : ℕ) (l : Looper.Label) : Label ι
  /-- The destructor calls `join`. -/
  | join (t : Thread ι) : Label ι
  /-- The destructor returns. -/
  | joined (t : Thread ι) : Label ι

/-- The steps, in any interleaving. -/
inductive Step : MainLooper ι → Label ι → MainLooper ι → Prop
  | get {s : MainLooper ι} {t : Thread ι} : s.Free t → Step s (.get t) (s.setUsage t .getting)
  | got {s : MainLooper ι} {t : Thread ι} : s.usage t = .getting → s.mutex = none →
      Step s (.got t) (s.mainLooper t)
  | use {s : MainLooper ι} {t : Thread ι} {k : ℕ} {l : Looper.Label} {u : Looper} :
      s.usage t = .holding k → Used l → Looper.Step (s.looper k) l u →
      Step s (.use t l) (s.setLooper k u)
  | releaseShared {s : MainLooper ι} {t : Thread ι} {k : ℕ} : s.usage t = .holding k →
      s.main = some k ∨ s.Shared t k → Step s (.release t) (s.setUsage t .outside)
  | releaseLast {s : MainLooper ι} {t : Thread ι} {k : ℕ} : s.usage t = .holding k →
      s.main ≠ some k → ¬s.Shared t k → Step s (.release t) (s.destroy t k false)
  | stop {s : MainLooper ι} {t : Thread ι} : s.Free t → Step s (.stop t) (s.setUsage t .stopping)
  | resetNone {s : MainLooper ι} {t : Thread ι} : s.usage t = .stopping → s.mutex = none →
      s.main = none → Step s (.reset t) (s.setUsage t .outside)
  | resetShared {s : MainLooper ι} {t : Thread ι} {k : ℕ} : s.usage t = .stopping →
      s.mutex = none → s.main = some k → s.Shared t k →
      Step s (.reset t) { s.setUsage t .outside with main := none }
  | resetLast {s : MainLooper ι} {t : Thread ι} {k : ℕ} : s.usage t = .stopping → s.mutex = none →
      s.main = some k → ¬s.Shared t k →
      Step s (.reset t) { s.destroy t k true with main := none, mutex := some t }
  | work {s : MainLooper ι} {k : ℕ} {l : Looper.Label} {u : Looper} : k < s.made → Worked l →
      (l = .handled → s.usage (.worker k) = .outside) → Looper.Step (s.looper k) l u →
      Step s (.work k l) (s.setLooper k u)
  | join {s : MainLooper ι} {t : Thread ι} {k : ℕ} {locked : Bool} {u : Looper} :
      s.usage t = .destroying k locked → Looper.Step (s.looper k) .join u →
      Step s (.join t) (s.setLooper k u)
  | joined {s : MainLooper ι} {t : Thread ι} {k : ℕ} {locked : Bool} :
      s.usage t = .destroying k locked → (s.looper k).destroying = .joining →
      (s.looper k).looping = .exited →
      Step s (.joined t)
        { s.setUsage t .outside with mutex := if locked then none else s.mutex }

/-! ### Who has a pointer -/

variable {s s' : MainLooper ι} {t t' : Thread ι} {k : ℕ} {locked : Bool} {u : Looper} {wakes : Prop}

/-- There is a pointer to the looper. -/
def Held (s : MainLooper ι) (k : ℕ) : Prop := s.main = some k ∨ ∃ t, s.usage t = .holding k

/-- **Nobody uses a looper that is being destroyed**, and the mutex has one owner. -/
structure Sound (s : MainLooper ι) : Prop where
  made : ∀ {k : ℕ}, s.Held k → k < s.made
  destroyed : ∀ {t : Thread ι} {k : ℕ} {locked : Bool}, s.usage t = .destroying k locked →
    k < s.made ∧ ¬s.Held k ∧ (s.looper k).running = false ∧ (s.looper k).destroying ≠ .outside
  mutex : ∀ {t : Thread ι} {k : ℕ}, s.usage t = .destroying k true → s.mutex = some t
  /-- The thread of a looper calls from a handler. -/
  handling : ∀ {k : ℕ}, s.usage (.worker k) ≠ .outside →
    ∃ message, (s.looper k).looping = .handling message
  unmade : ∀ {k : ℕ}, s.made ≤ k → s.looper k = .init

omit [DecidableEq ι] in
theorem sound_init : Sound (init : MainLooper ι) where
  made h := by simp [Held, init] at h
  destroyed h := by simp [init] at h
  mutex h := by simp [init] at h
  handling h := by simp [init] at h
  unmade _ := rfl

omit [DecidableEq ι] in
theorem setLooper_looper (s : MainLooper ι) (k j : ℕ) (u : Looper) :
    (s.setLooper k u).looper j = if j = k then u else s.looper j := by
  simp [setLooper, Function.update_apply]

theorem setUsage_usage (s : MainLooper ι) (t t' : Thread ι) (usage : Usage) :
    (s.setUsage t usage).usage t' = if t' = t then usage else s.usage t' := by
  simp [setUsage, Function.update_apply]

/-- A thread that gets no pointer has **none more**. -/
theorem Held.of_setUsage {usage : Usage} (hheld : ∀ k, usage ≠ .holding k)
    (h : (s.setUsage t usage).Held k) : s.Held k := by
  rcases h with hmain | ⟨t', ht'⟩
  · exact .inl hmain
  · rw [setUsage_usage] at ht'
    split_ifs at ht' with htt
    · exact absurd ht' (hheld k)
    · exact .inr ⟨t', ht'⟩

omit [DecidableEq ι] in
/-- **A step of a looper** that is not its destruction. -/
theorem Sound.setLooper (h : Sound s) (hk : k < s.made)
    (hstopped : (s.looper k).running = false → u.running = false)
    (hdestroying : (s.looper k).destroying ≠ .outside → u.destroying ≠ .outside)
    (hhandling : s.usage (.worker k) ≠ .outside → u.looping = (s.looper k).looping) :
    Sound (s.setLooper k u) where
  made := h.made
  destroyed {t j locked} ht := by
    obtain ⟨hj, hheld, hrunning, hout⟩ := h.destroyed ht
    rw [setLooper_looper]
    split_ifs with hjk
    · subst hjk
      exact ⟨hj, hheld, hstopped hrunning, hdestroying hout⟩
    · exact ⟨hj, hheld, hrunning, hout⟩
  mutex := h.mutex
  handling {j} hw := by
    rw [setLooper_looper]
    split_ifs with hjk
    · subst hjk
      rw [hhandling hw]
      exact h.handling hw
    · exact h.handling hw
  unmade {j} hj := by
    rw [setLooper_looper, if_neg (by rintro rfl; exact absurd hk (Nat.not_lt.mpr hj))]
    exact h.unmade hj

/-- **A thread without a pointer** goes on to where it has none. -/
theorem Sound.setUsage (h : Sound s) {usage : Usage} (hheld : ∀ k, usage ≠ .holding k)
    (hdestroying : ∀ k locked, usage ≠ .destroying k locked)
    (hhandling : ∀ k, t = .worker k → usage = .outside ∨ s.usage t ≠ .outside ∨
      ∃ message, (s.looper k).looping = .handling message) :
    Sound (s.setUsage t usage) where
  made hj := h.made (hj.of_setUsage hheld)
  destroyed {t' j locked} ht := by
    rw [setUsage_usage] at ht
    split_ifs at ht with htt
    · exact absurd ht (hdestroying j locked)
    · obtain ⟨hj, hnot, hrest⟩ := h.destroyed ht
      exact ⟨hj, fun hj' => hnot (hj'.of_setUsage hheld), hrest⟩
  mutex {t' j} ht := by
    rw [setUsage_usage] at ht
    split_ifs at ht with htt
    · exact absurd ht (hdestroying j true)
    · exact h.mutex ht
  handling {j} hw := by
    rw [setUsage_usage] at hw
    split_ifs at hw with htt
    · rcases hhandling j htt.symm with hout | hu | hmessage
      · exact absurd hout hw
      · exact h.handling (htt ▸ hu)
      · exact hmessage
    · exact h.handling hw
  unmade := h.unmade

/-- **The last pointer to a looper is let go of**. -/
theorem Sound.destroy (h : Sound s) {m : Option ℕ} {x : Option (Thread ι)} (hk : s.Held k)
    (ht : s.usage t ≠ .outside) (hm : ∀ j, m = some j → s.main = some j) (hmain : m ≠ some k)
    (hshared : ¬s.Shared t k) (hlocked : locked = true → x = some t)
    (hmutex : ∀ t' j, t' ≠ t → s.usage t' = .destroying j true → x = some t') :
    Sound { s.destroy t k locked with main := m, mutex := x } := by
  have husage (t' : Thread ι) : (s.destroy t k locked).usage t' =
      if t' = t then .destroying k locked else s.usage t' := setUsage_usage _ _ _ _
  have hlooper (j : ℕ) : (s.destroy t k locked).looper j =
      if j = k then { s.looper k with running := false, destroying := .stored } else s.looper j :=
    setLooper_looper _ _ _ _
  have hheld {j : ℕ} (hj : Held { s.destroy t k locked with main := m, mutex := x } j) :
      s.Held j ∧ j ≠ k := by
    rcases hj with hj | ⟨t', ht'⟩
    · exact ⟨.inl (hm j hj), fun hjk => hmain (hjk ▸ hj)⟩
    · dsimp only at ht'
      rw [husage] at ht'
      split_ifs at ht' with htt
      exact ⟨.inr ⟨t', ht'⟩, fun hjk => hshared ⟨t', htt, hjk ▸ ht'⟩⟩
  refine ⟨fun hj => h.made (hheld hj).1, fun {t' j b} ht' => ?_, fun {t' j} ht' => ?_,
    fun {j} hw => ?_, fun {j} hj => ?_⟩
  · dsimp only at ht' ⊢
    rw [husage] at ht'
    rw [hlooper]
    split_ifs at ht' with htt
    · obtain ⟨rfl, -⟩ : k = j ∧ locked = b := by simpa using ht'
      rw [if_pos rfl]
      exact ⟨h.made hk, fun hj => (hheld hj).2 rfl, rfl, by simp⟩
    · -- another looper, or it would not have been held
      obtain ⟨hj, hnot, hrest⟩ := h.destroyed ht'
      rw [if_neg (by rintro rfl; exact hnot hk)]
      exact ⟨hj, fun hj' => hnot (hheld hj').1, hrest⟩
  · dsimp only at ht' ⊢
    rw [husage] at ht'
    split_ifs at ht' with htt
    · obtain ⟨-, hb⟩ : k = j ∧ locked = true := by simpa using ht'
      rw [htt, hlocked hb]
    · exact hmutex t' j htt ht'
  · have hout : s.usage (.worker j) ≠ .outside := by
      dsimp only at hw
      rw [husage] at hw
      split_ifs at hw with htt
      · exact htt ▸ ht
      · exact hw
    obtain ⟨message, hmessage⟩ := h.handling hout
    refine ⟨message, ?_⟩
    dsimp only
    rw [hlooper]
    split_ifs with hjk
    · exact hjk ▸ hmessage
    · exact hmessage
  · have hjk : j ≠ k := by
      rintro rfl
      exact absurd (h.made hk) (Nat.not_lt.mpr hj)
    dsimp only
    rw [hlooper, if_neg hjk]
    exact h.unmade hj

/-- **A pointer is given out**. -/
theorem Sound.hold (h : Sound s) (hk : s.main = some k) (ht : s.usage t = .getting) :
    Sound (s.setUsage t (.holding k)) where
  made {j} hj := by
    rcases hj with hj | ⟨t', ht'⟩
    · exact h.made (.inl hj)
    · rw [setUsage_usage] at ht'
      split_ifs at ht' with htt
      · obtain rfl : k = j := by simpa using ht'
        exact h.made (.inl hk)
      · exact h.made (.inr ⟨t', ht'⟩)
  destroyed {t' j locked} ht' := by
    rw [setUsage_usage] at ht'
    split_ifs at ht' with htt
    obtain ⟨hj, hnot, hrest⟩ := h.destroyed ht'
    refine ⟨hj, ?_, hrest⟩
    rintro (hmain | ⟨t'', ht''⟩)
    · exact hnot (.inl hmain)
    · rw [setUsage_usage] at ht''
      split_ifs at ht'' with htt'
      · obtain rfl : k = j := by simpa using ht''
        exact hnot (.inl hk)
      · exact hnot (.inr ⟨t'', ht''⟩)
  mutex {t' j} ht' := by
    rw [setUsage_usage] at ht'
    split_ifs at ht' with htt
    exact h.mutex ht'
  handling {j} hw := by
    rw [setUsage_usage] at hw
    split_ifs at hw with htt
    · exact h.handling (by rw [htt, ht]; simp)
    · exact h.handling hw
  unmade := h.unmade

omit [DecidableEq ι] in
/-- **A looper is made** where there is none. -/
theorem Sound.make (h : Sound s) :
    Sound { s.setLooper s.made .init with main := some s.made, made := s.made + 1 } := by
  have hnew : s.setLooper s.made .init = s := by
    rw [MainLooper.setLooper, ← h.unmade (Nat.le_refl _), Function.update_eq_self]
  rw [hnew]
  refine ⟨fun {j} hj => ?_, fun {t j locked} ht => ?_, h.mutex, h.handling, fun hj => ?_⟩
  · rcases hj with hj | hj
    · obtain rfl : s.made = j := by simpa using hj
      exact Nat.lt_succ_self _
    · exact Nat.lt_succ_of_lt (h.made (.inr hj))
  · obtain ⟨hj, hnot, hrest⟩ := h.destroyed ht
    refine ⟨Nat.lt_succ_of_lt hj, ?_, hrest⟩
    rintro (hmain | ht')
    · obtain rfl : s.made = j := by simpa using hmain
      exact absurd hj (Nat.lt_irrefl _)
    · exact hnot (.inr ht')
  · exact h.unmade (Nat.le_of_succ_le hj)

/-- **`MainLooper` gives out** the looper that there is, or a new one. -/
theorem Sound.mainLooper (h : Sound s) (ht : s.usage t = .getting) : Sound (s.mainLooper t) := by
  rw [MainLooper.mainLooper]
  split
  · next k hk => exact h.hold hk ht
  · exact h.make.hold rfl ht

omit [DecidableEq ι] in
/-- What **the thread of a looper** does leaves alone. -/
theorem Worked.keeps {l : Looper.Label} {v : Looper} (hl : Worked l) (hstep : Looper.Step v l u) :
    u.running = v.running ∧ u.destroying = v.destroying := by
  cases hstep <;> first | exact hl.elim | exact ⟨rfl, rfl⟩

omit [DecidableEq ι] in
/-- What **a thread with a pointer** does leaves alone. -/
theorem Used.keeps {l : Looper.Label} {v : Looper} (hl : Used l) (hstep : Looper.Step v l u) :
    (v.running = false → u.running = false) ∧ u.destroying = v.destroying ∧
      u.looping = v.looping := by
  cases hstep with
  | send => exact ⟨fun hrunning => hrunning, rfl, rfl⟩
  | enqueue => exact ⟨fun hrunning => hrunning, rfl, rfl⟩
  | exit => exact ⟨fun _ => rfl, rfl, rfl⟩
  | _ => exact hl.elim

omit [DecidableEq ι] in
/-- While the handlers run, **the thread does nothing else**. -/
theorem Worked.handling {l : Looper.Label} {v : Looper} {message : MessageId} (hl : Worked l)
    (hv : v.looping = .handling message) (hnot : l ≠ .handled) (hstep : Looper.Step v l u) :
    u.looping = v.looping := by
  cases hstep with
  | tick => rfl
  | test hw => exact absurd (hv.symm.trans hw) (by simp)
  | next hw => exact absurd (hv.symm.trans hw) (by simp)
  | spurious => rfl
  | run hw => exact absurd (hv.symm.trans hw) (by simp)
  | handled => exact absurd rfl hnot
  | _ => exact hl.elim

omit [DecidableEq ι] in
/-- The main looper is **let go of**, while others have pointers to it. -/
theorem Sound.reset (h : Sound s) : Sound { s with main := none } where
  made hj := h.made (.inr (hj.resolve_left (by simp)))
  destroyed ht := by
    obtain ⟨hj, hnot, hrest⟩ := h.destroyed ht
    exact ⟨hj, fun hj' => hnot (.inr (hj'.resolve_left (by simp))), hrest⟩
  mutex := h.mutex
  handling := h.handling
  unmade := h.unmade

/-- **Every step** is sound. -/
theorem Step.sound {l : Label ι} (hstep : Step s l s') (h : Sound s) : Sound s' := by
  cases hstep with
  | get hfree => 
    exact h.setUsage (by simp) (by simp) fun k hk => .inr (.inr (hfree.2 k hk))
  | got ht => exact h.mainLooper ht
  | use ht hl hlooper =>
    obtain ⟨hrunning, hdestroying, hlooping⟩ := hl.keeps hlooper
    exact h.setLooper (h.made (.inr ⟨_, ht⟩)) hrunning (by rw [hdestroying]; exact id)
      fun _ => hlooping
  | releaseShared ht => exact h.setUsage (by simp) (by simp) fun _ _ => .inl rfl
  | @releaseLast t k ht hmain hshared =>
    exact h.destroy (m := s.main) (x := s.mutex) (.inr ⟨_, ht⟩) (by simp [ht]) (fun _ hj => hj)
      hmain hshared (by simp) fun _ _ _ ht' => h.mutex ht'
  | stop hfree => exact h.setUsage (by simp) (by simp) fun k hk => .inr (.inr (hfree.2 k hk))
  | resetNone => exact h.setUsage (by simp) (by simp) fun _ _ => .inl rfl
  | resetShared ht hmutex hmain => 
    exact Sound.reset (h.setUsage (by simp) (by simp) fun _ _ => .inl rfl)
  | resetLast ht hmutex hmain hshared =>
    refine h.destroy (.inl hmain) (by simp [ht]) (by simp) (by simp) hshared (fun _ => rfl) ?_
    intro t' j _ ht'
    rw [h.mutex ht'] at hmutex
    cases hmutex
  | work hk hl hw hlooper => 
    obtain ⟨hrunning, hdestroying⟩ := hl.keeps hlooper
    refine h.setLooper hk (by rw [hrunning]; exact id) (by rw [hdestroying]; exact id) ?_
    intro hout
    obtain ⟨message, hmessage⟩ := h.handling hout
    exact hl.handling hmessage (fun hhandled => hout (hw hhandled)) hlooper
  | join ht hlooper =>
    obtain ⟨hk, -, hrunning, -⟩ := h.destroyed ht
    cases hlooper with
    | join => exact h.setLooper hk (fun _ => hrunning) (by simp) fun _ => rfl
  | @joined t k locked ht hjoin hexit =>
    have h' : Sound (s.setUsage t .outside) := h.setUsage (by simp) (by simp) fun _ _ => .inl rfl
    refine ⟨h'.made, h'.destroyed, fun {t' j} ht' => ?_, h'.handling, h'.unmade⟩
    have hmutex := h'.mutex ht'
    cases locked with
    | false => exact hmutex
    | true =>
      -- the mutex has one owner, and this is through
      obtain rfl : t = t' := by simpa using (h.mutex ht).symm.trans hmutex
      simp [setUsage_usage] at ht'

/-! ### Destructions that do not return -/

/-- The thread of the looper is **in `Next` for good**: there is no message, or there is one and it
sleeps; then it would have to wake up without having been notified. -/
def Deaf (wakes : Prop) (u : Looper) : Prop :=
  u.looping = .next ∧
    (u.queue.list.items = [] ∨ u.queue.list.waiter () = .asleep ∧ ¬wakes)

/-- Threads wake up without having been notified only if they ever do. -/
def Wakes (wakes : Prop) (l : Label ι) : Prop := ∀ k, l = .work k .spurious → wakes

/-- A handler of the looper **waits for the destruction**: it runs this itself, or waits for the
mutex, which `StopMainLooper` has meanwhile. -/
def Barred (s : MainLooper ι) (t : Thread ι) (k : ℕ) (locked : Bool) : Prop :=
  t = .worker k ∨
    locked = true ∧ (s.usage (.worker k) = .getting ∨ s.usage (.worker k) = .stopping)

omit [DecidableEq ι] in
theorem Barred.usage_ne (h : s.Barred t k locked) (ht : s.usage t = .destroying k locked) :
    s.usage (.worker k) ≠ .outside := by
  rcases h with rfl | ⟨-, hw | hw⟩
  · rw [ht]
    simp
  · simp [hw]
  · simp [hw]

/-- **A destructor goes on** only when the thread of the looper has ended. -/
theorem Step.destroying {l : Label ι} (hstep : Step s l s') (ht : s.usage t = .destroying k locked)
    (hexit : (s.looper k).looping ≠ .exited) : s'.usage t = .destroying k locked := by
  have hkeep {t' : Thread ι} (usage : Usage) (ht' : s.usage t' ≠ .destroying k locked) :
      (s.setUsage t' usage).usage t = .destroying k locked := by
    rw [setUsage_usage, if_neg (by rintro rfl; exact ht' ht), ht]
  cases hstep with
  | get hfree => exact hkeep _ (by simp [hfree.1])
  | got ht' =>
    rw [mainLooper]
    split
    · exact hkeep _ (by simp [ht'])
    · exact hkeep _ (by simp [ht'])
  | use => exact ht
  | releaseShared ht' => exact hkeep _ (by simp [ht'])
  | releaseLast ht' => exact hkeep _ (by simp [ht'])
  | stop hfree => exact hkeep _ (by simp [hfree.1])
  | resetNone ht' => exact hkeep _ (by simp [ht'])
  | resetShared ht' => exact hkeep _ (by simp [ht'])
  | resetLast ht' => exact hkeep _ (by simp [ht'])
  | work => exact ht
  | join => exact ht
  | joined ht' _ hexit' =>
    refine hkeep _ fun hsame => hexit ?_
    obtain ⟨rfl, -⟩ : _ = k ∧ _ = locked := by simpa using ht'.symm.trans hsame
    exact hexit'

/-- **What becomes of a looper** that is being destroyed: its thread goes on, or nothing that
matters to this. -/
theorem Step.destroyed {l : Label ι} (hstep : Step s l s') (h : Sound s)
    (ht : s.usage t = .destroying k locked) :
    ((s'.looper k).looping = (s.looper k).looping ∧
        (s'.looper k).queue.list = (s.looper k).queue.list) ∨
      ∃ l', l = .work k l' ∧ Worked l' ∧ Looper.Step (s.looper k) l' (s'.looper k) := by
  obtain ⟨hk, hnot, -, -⟩ := h.destroyed ht
  have hsame {j : ℕ} (u : Looper) (hj : j ≠ k) : (s.setLooper j u).looper k = s.looper k := by
    rw [setLooper_looper, if_neg hj.symm]
  have hheld {j : ℕ} (u : Looper) (hj : s.Held j) :
      (s.setLooper j u).looper k = s.looper k :=
    hsame u (by rintro rfl; exact hnot hj)
  have hkeep {v : Looper} (hv : v = s.looper k) : v.looping = (s.looper k).looping ∧
      v.queue.list = (s.looper k).queue.list := by
    rw [hv]
    exact ⟨rfl, rfl⟩
  cases hstep with
  | got ht' =>
    left
    rw [mainLooper]
    split
    · exact ⟨rfl, rfl⟩
    · exact hkeep (hsame _ (Nat.ne_of_gt hk))
  | use ht' => exact .inl (hkeep (hheld _ (.inr ⟨_, ht'⟩)))
  | releaseLast ht' => exact .inl (hkeep (hheld _ (.inr ⟨_, ht'⟩)))
  | resetLast _ _ hmain => exact .inl (hkeep (hheld _ (.inl hmain)))
  | @work j l u hj hl hw hlooper =>
    by_cases hjk : j = k
    · subst hjk
      refine .inr ⟨l, rfl, hl, ?_⟩
      rwa [setLooper_looper, if_pos rfl]
    · exact .inl (hkeep (hsame _ hjk))
  | join _ hlooper =>
    left
    rw [setLooper_looper]
    split_ifs with hjk
    · subst hjk
      cases hlooper
      exact ⟨rfl, rfl⟩
    · exact ⟨rfl, rfl⟩
  | _ => exact .inl ⟨rfl, rfl⟩

/-- A thread that waits for the mutex waits on **while another one has it**. -/
theorem Step.waits {l : Label ι} (hstep : Step s l s') (hmutex : s.mutex ≠ none)
    (ht : s.usage t = .getting ∨ s.usage t = .stopping) : s'.usage t = s.usage t := by
  have hkeep {t' : Thread ι} (usage : Usage) (hg : s.usage t' ≠ .getting)
      (hs : s.usage t' ≠ .stopping) : (s.setUsage t' usage).usage t = s.usage t := by
    rw [setUsage_usage, if_neg (by rintro rfl; exact ht.elim hg hs)]
  cases hstep with
  | get hfree => exact hkeep _ (by simp [hfree.1]) (by simp [hfree.1])
  | got _ hmutex' => exact absurd hmutex' hmutex
  | use => rfl
  | releaseShared ht' => exact hkeep _ (by simp [ht']) (by simp [ht'])
  | releaseLast ht' => exact hkeep _ (by simp [ht']) (by simp [ht'])
  | stop hfree => exact hkeep _ (by simp [hfree.1]) (by simp [hfree.1])
  | resetNone _ hmutex' => exact absurd hmutex' hmutex
  | resetShared _ hmutex' => exact absurd hmutex' hmutex
  | resetLast _ hmutex' => exact absurd hmutex' hmutex
  | work => rfl
  | join => rfl
  | joined ht' => exact hkeep _ (by simp [ht']) (by simp [ht'])

omit [DecidableEq ι] in
/-- A thread that is in `Next` for good **stays there**. -/
theorem Deaf.step {l : Looper.Label} {v : Looper} (h : Deaf wakes v) (hl : Worked l)
    (hwakes : l = .spurious → wakes) (hstep : Looper.Step v l u) : Deaf wakes u := by
  obtain ⟨hnext, hwait⟩ := h
  cases hstep with
  | tick => exact ⟨hnext, hwait⟩
  | test hw => exact absurd (hnext.symm.trans hw) (by simp)
  | next _ hawake =>
    have hnil : v.queue.list.items = [] := hwait.resolve_right fun hasleep => hawake hasleep.1
    rw [Deaf, Looper.next, MessageQueue.next_of_nil hnil]
    exact ⟨rfl, .inl hnil⟩
  | spurious =>
    have hnil : v.queue.list.items = [] :=
      hwait.resolve_right fun hasleep => hasleep.2 (hwakes rfl)
    exact ⟨hnext, .inl hnil⟩
  | run hw => exact absurd (hnext.symm.trans hw) (by simp)
  | handled hw => exact absurd (hnext.symm.trans hw) (by simp)
  | _ => exact hl.elim

/-- A destructor that is **never through**. -/
structure Stuck (wakes : Prop) (s : MainLooper ι) (t : Thread ι) (k : ℕ) (locked : Bool) :
    Prop where
  sound : Sound s
  usage : s.usage t = .destroying k locked
  worker : Deaf wakes (s.looper k) ∨ s.Barred t k locked

/-- **No step** gets it through. -/
theorem Step.stuck {l : Label ι} (hstep : Step s l s') (hwakes : Wakes wakes l)
    (h : Stuck wakes s t k locked) : Stuck wakes s' t k locked := by
  obtain ⟨hsound, ht, hdeaf | hbarred⟩ := h
  · have hexit : (s.looper k).looping ≠ .exited := by simp [hdeaf.1]
    refine ⟨hstep.sound hsound, hstep.destroying ht hexit, .inl ?_⟩
    rcases hstep.destroyed hsound ht with ⟨hlooping, hlist⟩ | ⟨l', rfl, hl', hlooper⟩
    · rw [Deaf, hlooping, hlist]
      exact hdeaf
    · exact hdeaf.step hl' (fun hspurious => hwakes k (by rw [hspurious])) hlooper
  · obtain ⟨message, hmessage⟩ := hsound.handling (hbarred.usage_ne ht)
    have hexit : (s.looper k).looping ≠ .exited := by simp [hmessage]
    refine ⟨hstep.sound hsound, hstep.destroying ht hexit, .inr ?_⟩
    rcases hbarred with rfl | ⟨rfl, hw⟩
    · exact .inl rfl
    · have hmutex : s.mutex ≠ none := by simp [hsound.mutex ht]
      rw [Barred, hstep.waits hmutex hw]
      exact .inr ⟨rfl, hw⟩

/-! ### Destructions that return -/

/-- The destructor **can return**. -/
def Returns (wakes : Prop) (s : MainLooper ι) (t : Thread ι) : Prop :=
  ∃ ls u, (∀ l ∈ ls, Wakes wakes l) ∧ Lts.Run Step s ls u ∧ u.usage t = .outside

theorem Stuck.not_returns (h : Stuck wakes s t k locked) : ¬Returns wakes s t := by
  rintro ⟨ls, u, hls, hrun, hu⟩
  have hstuck : Stuck wakes u t k locked :=
    hrun.preserves (P := Wakes wakes) (fun h hl hstep => hstep.stuck hl h) hls h
  rw [hstuck.usage] at hu
  cases hu

theorem Returns.of_step {l : Label ι} (hstep : Step s l s') (hl : Wakes wakes l)
    (h : Returns wakes s' t) : Returns wakes s t := by
  obtain ⟨ls, u, hls, hrun, hu⟩ := h
  exact ⟨l :: ls, u, List.forall_mem_cons.mpr ⟨hl, hls⟩, .cons hstep hrun, hu⟩

/-- A destructor whose looper is **at work on its own**. -/
structure Leaving (s : MainLooper ι) (t : Thread ι) (k : ℕ) (locked : Bool) : Prop where
  sound : Sound s
  usage : s.usage t = .destroying k locked
  worker : s.usage (.worker k) = .outside

/-- The thread of the looper **goes on**. -/
theorem Leaving.work (h : s.Leaving t k locked) {l : Looper.Label}
    (hlooper : Looper.Step (s.looper k) l u) (hl : Worked l) (hwakes : l = .spurious → wakes)
    (hgo : (s.setLooper k u).Leaving t k locked → Returns wakes (s.setLooper k u) t) :
    Returns wakes s t := by
  have hstep : Step s (.work k l) (s.setLooper k u) :=
    .work (h.sound.destroyed h.usage).1 hl (fun _ => h.worker) hlooper
  refine Returns.of_step hstep ?_ (hgo ⟨hstep.sound h.sound, h.usage, h.worker⟩)
  rintro j hj
  simp only [Label.work.injEq] at hj
  exact hwakes hj.2

/-- It has **ended**: it is joined. -/
theorem Leaving.returns_of_exited (h : s.Leaving t k locked)
    (hw : (s.looper k).looping = .exited) : Returns wakes s t := by
  have hthrough {s : MainLooper ι} (ht : s.usage t = .destroying k locked)
      (hw : (s.looper k).looping = .exited) (hjoin : (s.looper k).destroying = .joining) :
      Returns wakes s t := by
    refine Returns.of_step (.joined ht hjoin hw) (by simp [Wakes]) ⟨[], _, by simp, .nil _, ?_⟩
    simp [setUsage_usage]
  obtain ⟨-, -, -, hout⟩ := h.sound.destroyed h.usage
  rcases hdestroying : (s.looper k).destroying with _ | _ | _
  · exact absurd hdestroying hout
  · refine Returns.of_step (.join h.usage (.join hdestroying)) (by simp [Wakes])
      (hthrough h.usage ?_ ?_)
    · simp [setLooper_looper, hw]
    · simp [setLooper_looper]
  · exact hthrough h.usage hw hdestroying

/-- It **leaves the loop** at its next test. -/
theorem Leaving.returns_of_testing (h : s.Leaving t k locked)
    (hw : (s.looper k).looping = .testing) : Returns wakes s t := by
  obtain ⟨-, -, hrunning, -⟩ := h.sound.destroyed h.usage
  refine h.work (.test hw) trivial (by simp) fun h' => h'.returns_of_exited ?_
  simp [setLooper_looper, Looper.test, hrunning]

theorem Leaving.returns_of_handling (h : s.Leaving t k locked) (message : MessageId)
    (hw : (s.looper k).looping = .handling message) : Returns wakes s t := by
  refine h.work (.handled hw) trivial (by simp) fun h' => h'.returns_of_testing ?_
  simp [setLooper_looper]

theorem Leaving.returns_of_run (h : s.Leaving t k locked) (message : MessageId)
    (hw : (s.looper k).looping = .run message) : Returns wakes s t := by
  refine h.work (.run hw) trivial (by simp) fun h' => h'.returns_of_handling message ?_
  simp [setLooper_looper]

/-- In `Next`, and awake, it takes **a message**. -/
theorem Leaving.returns_of_awake (h : s.Leaving t k locked) (hw : (s.looper k).looping = .next)
    (hne : (s.looper k).queue.list.items ≠ [])
    (hawake : (s.looper k).queue.list.waiter () ≠ .asleep) : Returns wakes s t := by
  obtain ⟨message, items, hitems⟩ := List.exists_cons_of_ne_nil hne
  refine h.work (.next hw hawake) trivial (by simp) fun h' => h'.returns_of_run message ?_
  simp [setLooper_looper, Looper.next, MessageQueue.next_of_cons hitems]

theorem Leaving.returns_of_next (h : s.Leaving t k locked) (hw : (s.looper k).looping = .next)
    (hdeaf : ¬Deaf wakes (s.looper k)) : Returns wakes s t := by
  have hne : (s.looper k).queue.list.items ≠ [] := fun hnil => hdeaf ⟨hw, .inl hnil⟩
  by_cases hasleep : (s.looper k).queue.list.waiter () = .asleep
  · have hwakes : wakes := by
      by_contra hnot
      exact hdeaf ⟨hw, .inr ⟨hasleep, hnot⟩⟩
    refine h.work (.spurious hw hasleep) trivial (fun _ => hwakes) fun h' =>
      h'.returns_of_awake ?_ ?_ ?_
    · simp [setLooper_looper, hw]
    · simpa [setLooper_looper] using hne
    · simp [setLooper_looper]
  · exact h.returns_of_awake hw hne hasleep

/-- **Unless it is in `Next` for good**, it ends. -/
theorem Leaving.returns (h : s.Leaving t k locked) (hdeaf : ¬Deaf wakes (s.looper k)) :
    Returns wakes s t := by
  rcases hw : (s.looper k).looping with _ | _ | message | message | _
  · exact h.returns_of_testing hw
  · exact h.returns_of_next hw hdeaf
  · exact h.returns_of_run message hw
  · exact h.returns_of_handling message hw
  · exact h.returns_of_exited hw

/-- **When the destruction of a looper can return.** In a run of any number of threads, and of
handlers, that call `MainLooper` and `StopMainLooper`, use the looper they get and let go of it:
where the handler that a looper runs, if it runs one, does none of this, the destruction of the
looper can return exactly if its thread is not in `Next` for good, without a message or asleep,
whether or not threads wake up without having been notified. Where the handler destroys the looper
itself, or waits for the mutex while `StopMainLooper` destroys the looper, it cannot. -/
theorem destruction_returns_iff {ls : List (Label ι)} (hrun : Lts.Run Step init ls s)
    (ht : s.usage t = .destroying k locked) :
    (s.usage (.worker k) = .outside → (Returns wakes s t ↔ ¬Deaf wakes (s.looper k))) ∧
      (s.Barred t k locked → ¬Returns wakes s t) := by
  have h : Sound s := hrun.invariant (fun h hstep => hstep.sound h) sound_init
  refine ⟨fun hw => ⟨fun hreturns hdeaf => ?_, Leaving.returns ⟨h, ht, hw⟩⟩, fun hbarred => ?_⟩
  · exact Stuck.not_returns ⟨h, ht, .inl hdeaf⟩ hreturns
  · exact Stuck.not_returns ⟨h, ht, .inr hbarred⟩

/-- **A handler that sends**, while `StopMainLooper` destroys its looper: neither goes on. -/
theorem destruction_returns_sending :
    ∃ s : MainLooper Unit,
      Lts.Run Step init [.get (.user ()), .got (.user ()), .use (.user ()) (.enqueue 0),
        .release (.user ()), .work 0 .test, .work 0 .next, .work 0 .run, .get (.worker 0),
        .stop (.user ()), .reset (.user ())] s ∧
        s.usage (.user ()) = .destroying 0 true ∧ ∀ wakes, ¬Returns wakes s (.user ()) := by
  have hrun : ∃ s : MainLooper Unit,
      Lts.Run Step init [.get (.user ()), .got (.user ()), .use (.user ()) (.enqueue 0),
        .release (.user ()), .work 0 .test, .work 0 .next, .work 0 .run, .get (.worker 0),
        .stop (.user ()), .reset (.user ())] s ∧
        s.usage (.user ()) = .destroying 0 true ∧ s.usage (.worker 0) = .getting := by
    refine ⟨_, .cons (.get ⟨rfl, by simp⟩) (.cons (.got rfl rfl)
      (.cons (.use (k := 0) rfl trivial (.enqueue 0))
        (.cons (.releaseShared (k := 0) rfl (.inl rfl))
        (.cons (.work (by decide) trivial (by simp) (.test rfl))
          (.cons (.work (by decide) trivial (by simp) (.next rfl (by decide)))
            (.cons (.work (by decide) trivial (by simp) (@Looper.Step.run _ 0 rfl))
              (.cons (.get ⟨rfl, ?_⟩) (.cons (.stop ⟨rfl, by simp⟩)
                (.single (.resetLast (k := 0) rfl rfl rfl ?_)))))))))), rfl, rfl⟩
    · rintro k ⟨⟩
      exact ⟨0, rfl⟩
    · rintro ⟨⟨⟩ | j, hne, hj⟩
      · exact hne rfl
      · by_cases hj0 : j = 0
        · subst hj0
          cases hj
        · simp [setUsage, setLooper, mainLooper, init, hj0] at hj
  obtain ⟨s, hrun, ht, hw⟩ := hrun
  exact ⟨s, hrun, ht, fun _ => (destruction_returns_iff hrun ht).2 (.inr ⟨rfl, .inl hw⟩)⟩

end MainLooper

end MToolkit

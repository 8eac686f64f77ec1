import MToolkit.LockContainer.LockMap
import MToolkit.Library.Lts

/-!
# The streams of a player

`PulseAudioManager` and `GstAudioManager` keep their streams in a `LockMap` of shared pointers, by
the tasks they are for. `Play` makes a stream and inserts it; the map does not take it where it has
one for the task, and the stream is then destroyed with the last pointer to it. A stream that is not
running any more is removed by the next `DeleteExpiredAudioStreamsHandle`.

What the two share is stated for streams of any type, with what closes them and whether they are
running. Calls of `Play` by several threads interleave between the start of the stream and its
insertion, and so do all other calls. A stream is held by the map under the task it was made for,
or by a call of `Play`, or has been closed (`StreamManager.Sound`).
-/

namespace MToolkit

/-- The map of the streams, with all that have been made. -/
structure StreamManager (κ σ : Type) [LinearOrder κ] where
  /-- `stream_manager_`, with the streams by their numbers. -/
  manager : LockMap κ ℕ := .init
  /-- The streams that have been made, each with its task. -/
  streams : List (κ × σ) := []
  /-- Those that a call of `Play` has still to insert. -/
  pending : List ℕ := []

namespace StreamManager

variable {κ σ : Type} [LinearOrder κ]

/-- The task that a stream was made for. -/
def owner (m : StreamManager κ σ) (i : ℕ) : Option κ := m.streams[i]?.map Prod.fst

/-- The state of a stream. -/
def state (m : StreamManager κ σ) (i : ℕ) : Option σ := m.streams[i]?.map Prod.snd

/-- A stream changes. -/
def change (m : StreamManager κ σ) (f : σ → σ) (i : ℕ) : StreamManager κ σ :=
  { m with streams := m.streams.modify i (Prod.map id f) }

/-- Streams change, one after the other. -/
def changeAll (m : StreamManager κ σ) (f : σ → σ) (is : List ℕ) : StreamManager κ σ :=
  is.foldl (fun m i => m.change f i) m

/-! ### The calls -/

/-- An entry of the map whose stream is not running. -/
def expired (m : StreamManager κ σ) (running : σ → Bool) (entry : κ × ℕ) : Bool :=
  !(m.state entry.2).any running

/-- `DeleteExpiredAudioStreamsHandle`: the streams that are removed are destroyed. -/
def deleteExpired (m : StreamManager κ σ) (running : σ → Bool) (close : σ → σ) :
    StreamManager κ σ :=
  { m with manager := m.manager.removeIf (m.expired running) }.changeAll close
    ((m.manager.value.entries.filter (m.expired running)).map Prod.snd)

/-- A call of `Play` has started a stream. -/
def start (m : StreamManager κ σ) (task : κ) (stream : σ) : StreamManager κ σ :=
  { m with streams := m.streams ++ [(task, stream)], pending := m.streams.length :: m.pending }

/-- A call of `Play` inserts its stream, which is destroyed if the map does not take it. -/
def insert (m : StreamManager κ σ) (close : σ → σ) (i : ℕ) : StreamManager κ σ :=
  match m.owner i with
  | none => m
  | some task =>
    let u := { m with manager := m.manager.insert task i, pending := m.pending.erase i }
    if m.manager.isExist task then u.change close i else u

/-- A call for all streams. -/
def forAll (m : StreamManager κ σ) (f : σ → σ) : StreamManager κ σ :=
  m.manager.forEach (fun _ i u => u.change f i) m

/-- A call for the stream of a task. -/
def forTask (m : StreamManager κ σ) (f : σ → σ) (task : κ) : StreamManager κ σ :=
  if m.manager.isExist task then m.change f (m.manager.index task).1 else m

/-- What is done with the streams. -/
inductive Act (κ σ : Type) where
  | deleteExpired : Act κ σ
  | start (task : κ) (stream : σ) : Act κ σ
  | insert (i : ℕ) : Act κ σ
  | forAll (f : σ → σ) : Act κ σ
  | forTask (f : σ → σ) (task : κ) : Act κ σ
  /-- Something happens to a stream. -/
  | event (f : σ → σ) (i : ℕ) : Act κ σ

/-- It is done. -/
def act (running : σ → Bool) (close : σ → σ) (m : StreamManager κ σ) :
    Act κ σ → StreamManager κ σ
  | .deleteExpired => m.deleteExpired running close
  | .start task stream => m.start task stream
  | .insert i => m.insert close i
  | .forAll f => m.forAll f
  | .forTask f task => m.forTask f task
  | .event f i => m.change f i

/-! ### One change -/

variable {m : StreamManager κ σ} {f : σ → σ} {i j : ℕ}

@[simp] theorem manager_change : (m.change f i).manager = m.manager := rfl

@[simp] theorem pending_change : (m.change f i).pending = m.pending := rfl

@[simp] theorem owner_change (j : ℕ) : (m.change f i).owner j = m.owner j := by
  rw [owner, owner, change, List.getElem?_modify]
  cases m.streams[j]? <;> split_ifs <;> rfl

theorem state_change (j : ℕ) :
    (m.change f i).state j = if i = j then (m.state j).map f else m.state j := by
  rw [state, state, change, List.getElem?_modify]
  cases m.streams[j]? <;> split_ifs <;> rfl

variable {is : List ℕ}

@[simp] theorem manager_changeAll : (m.changeAll f is).manager = m.manager := by
  induction is generalizing m with
  | nil => rfl
  | cons i is ih => exact ih

@[simp] theorem pending_changeAll : (m.changeAll f is).pending = m.pending := by
  induction is generalizing m with
  | nil => rfl
  | cons i is ih => exact ih

@[simp] theorem owner_changeAll (j : ℕ) : (m.changeAll f is).owner j = m.owner j := by
  induction is generalizing m with
  | nil => rfl
  | cons i is ih => exact ih.trans (owner_change j)

/-- **Each of them changes**, and no other. -/
theorem state_changeAll (his : is.Nodup) (j : ℕ) :
    (m.changeAll f is).state j = if j ∈ is then (m.state j).map f else m.state j := by
  induction is generalizing m with
  | nil => rfl
  | cons i is ih =>
    obtain ⟨hi, his⟩ := List.nodup_cons.mp his
    rw [show m.changeAll f (i :: is) = (m.change f i).changeAll f is from rfl, ih his, state_change]
    by_cases hij : i = j
    · subst hij
      simp [hi]
    · simp [hij, Ne.symm hij]

/-! ### Who holds a stream -/

/-- The map holds a stream under a task. -/
def Holds (m : StreamManager κ σ) (task : κ) (i : ℕ) : Prop := m.manager.value.lookup task = some i

/-- **Each stream is held** by the map, under the task it was made for, or by a call of `Play`, and
by no other, or else it is closed. -/
structure Sound (closed : σ → Prop) (m : StreamManager κ σ) : Prop where
  held : ∀ {task i}, m.Holds task i → m.owner i = some task ∧ i ∉ m.pending
  pending : ∀ i ∈ m.pending, (m.owner i).isSome
  nodup : m.pending.Nodup
  closed : ∀ {i x}, m.state i = some x → i ∉ m.pending → (∀ task, ¬m.Holds task i) → closed x

variable {closed : σ → Prop}

theorem sound_init : Sound closed ({} : StreamManager κ σ) where
  held h := absurd h nofun
  pending := nofun
  nodup := .nil
  closed h := absurd h nofun

/-- A stream is there for which there is a state. -/
theorem isSome_state : (m.state i).isSome = (m.owner i).isSome := by
  rw [state, owner]
  cases m.streams[i]? <;> rfl

/-- The streams of the map are all different. -/
theorem Sound.nodup_values (h : Sound closed m) :
    (m.manager.value.entries.map Prod.snd).Nodup := by
  rw [List.nodup_map_iff_inj_on (m.manager.value.sorted.imp fun hlt heq => hlt.ne
    (congrArg Prod.fst heq))]
  rintro ⟨task, i⟩ hi ⟨task', i'⟩ hi' (rfl : i = i')
  have hown := (h.held (m.manager.value.mem_entries_iff.mp hi)).1
  rw [(h.held (m.manager.value.mem_entries_iff.mp hi')).1, Option.some.injEq] at hown
  rw [hown]

/-- The call for all streams changes those that the map holds. -/
theorem forAll_eq (m : StreamManager κ σ) (f : σ → σ) :
    m.forAll f = m.changeAll f (m.manager.value.entries.map Prod.snd) := by
  rw [forAll, LockMap.forEach, changeAll, List.foldl_map]

/-- The call for a task changes the stream that the map holds for it, if it does. -/
theorem forTask_eq (m : StreamManager κ σ) (f : σ → σ) (task : κ) :
    m.forTask f task = match m.manager.value.lookup task with
      | some i => m.change f i
      | none => m := by
  rw [forTask, LockMap.isExist, LockMap.index]
  cases m.manager.value.lookup task <;> rfl

/-- Which streams are held after the expired ones are removed. -/
theorem holds_deleteExpired {running : σ → Bool} {close : σ → σ} {task : κ} :
    (m.deleteExpired running close).Holds task i ↔
      m.Holds task i ∧ (m.state i).any running = true := by
  rw [Holds, deleteExpired, manager_changeAll, LockMap.lookup_removeIf, Option.filter_eq_some_iff,
    expired]
  simp [Holds]

/-- Changes of streams that are not closed, or stay so. -/
theorem Sound.change (h : Sound closed m)
    (hf : ∀ x, m.state i = some x → i ∉ m.pending → (∀ task, ¬m.Holds task i) → closed (f x)) :
    Sound closed (m.change f i) where
  held hheld := by
    rw [owner_change]
    exact h.held hheld
  pending j hj := by
    rw [owner_change]
    exact h.pending j hj
  nodup := h.nodup
  closed {j x} hx hpending hfree := by
    rw [state_change] at hx
    split_ifs at hx with hij
    · subst hij
      obtain ⟨y, hy, rfl⟩ := Option.map_eq_some_iff.mp hx
      exact hf y hy hpending hfree
    · exact h.closed hx hpending hfree

theorem Sound.forAll (h : Sound closed m) (f : σ → σ) : Sound closed (m.forAll f) := by
  rw [forAll_eq]
  have hheld : ∀ i ∈ m.manager.value.entries.map Prod.snd, ∃ task, m.Holds task i := by
    intro i hi
    obtain ⟨⟨task, i⟩, hentry, rfl⟩ := List.mem_map.mp hi
    exact ⟨task, m.manager.value.mem_entries_iff.mp hentry⟩
  generalize m.manager.value.entries.map Prod.snd = is at hheld
  induction is generalizing m with
  | nil => exact h
  | cons i is ih =>
    rw [List.forall_mem_cons] at hheld
    obtain ⟨task, hi⟩ := hheld.1
    exact ih (h.change fun x _ _ hfree => absurd hi (hfree task)) hheld.2

theorem Sound.forTask (h : Sound closed m) (f : σ → σ) (task : κ) :
    Sound closed (m.forTask f task) := by
  rw [forTask_eq]
  cases hi : m.manager.value.lookup task with
  | none => exact h
  | some i => exact h.change fun x _ _ hfree => absurd hi (hfree task)

/-- The streams that are removed are closed. -/
theorem Sound.deleteExpired {running : σ → Bool} {close : σ → σ} (h : Sound closed m)
    (hclose : ∀ x, closed (close x)) : Sound closed (m.deleteExpired running close) where
  held hheld := by
    rw [StreamManager.deleteExpired, owner_changeAll, pending_changeAll]
    exact h.held (holds_deleteExpired.mp hheld).1
  pending j hj := by
    rw [StreamManager.deleteExpired, owner_changeAll]
    rw [StreamManager.deleteExpired, pending_changeAll] at hj
    exact h.pending j hj
  nodup := by
    rw [StreamManager.deleteExpired, pending_changeAll]
    exact h.nodup
  closed {i x} hx hpending hfree := by
    have hnodup : ((m.manager.value.entries.filter (m.expired running)).map Prod.snd).Nodup :=
      h.nodup_values.sublist (List.filter_sublist.map Prod.snd)
    rw [StreamManager.deleteExpired, pending_changeAll] at hpending
    have hstate := hx
    rw [StreamManager.deleteExpired, state_changeAll hnodup] at hstate
    split_ifs at hstate with hgone
    · obtain ⟨y, -, rfl⟩ := Option.map_eq_some_iff.mp hstate
      exact hclose y
    · refine h.closed hstate hpending fun task hheld => hfree task ?_
      refine holds_deleteExpired.mpr ⟨hheld, ?_⟩
      by_contra hrunning
      refine hgone (List.mem_map.mpr ⟨(task, i), List.mem_filter.mpr ⟨?_, ?_⟩, rfl⟩)
      · exact m.manager.value.mem_entries_iff.mpr hheld
      · rw [expired, Bool.eq_false_iff.mpr hrunning]
        rfl

theorem owner_start (task : κ) (stream : σ) (i : ℕ) :
    (m.start task stream).owner i = if i = m.streams.length then some task else m.owner i := by
  rw [owner, owner, start, List.getElem?_append]
  split_ifs with hlt heq heq
  · omega
  · rfl
  · simp [heq]
  · simp [show i - m.streams.length ≠ 0 by omega, hlt]

theorem state_start (task : κ) (stream : σ) (i : ℕ) :
    (m.start task stream).state i = if i = m.streams.length then some stream else m.state i := by
  rw [state, state, start, List.getElem?_append]
  split_ifs with hlt heq heq
  · omega
  · rfl
  · simp [heq]
  · simp [show i - m.streams.length ≠ 0 by omega, hlt]

theorem owner_length : m.owner m.streams.length = none := by
  rw [owner, List.getElem?_eq_none le_rfl]
  rfl

theorem Sound.start (h : Sound closed m) (task : κ) (stream : σ) :
    Sound closed (m.start task stream) := by
  have hnew : m.streams.length ∉ m.pending := by
    intro hmem
    have hsome := h.pending _ hmem
    rw [owner_length] at hsome
    cases hsome
  refine ⟨fun {task' i} hheld => ?_, fun i hi => ?_, List.nodup_cons.mpr ⟨hnew, h.nodup⟩,
    fun {i x} hx hpending hfree => ?_⟩
  · obtain ⟨hown, hpending⟩ := h.held hheld
    have hne : i ≠ m.streams.length := by
      rintro rfl
      rw [owner_length] at hown
      cases hown
    rw [owner_start, if_neg hne]
    exact ⟨hown, fun hmem => (List.mem_cons.mp hmem).elim hne hpending⟩
  · rw [owner_start]
    split_ifs with heq
    · rfl
    · exact h.pending i ((List.mem_cons.mp hi).resolve_left heq)
  · obtain ⟨hne, hpending⟩ := not_or.mp fun hor => hpending (List.mem_cons.mpr hor)
    rw [state_start, if_neg hne] at hx
    exact h.closed hx hpending hfree

/-- A call of `Play` whose task has a stream: its own is closed, and all else is as it was. -/
theorem insert_of_holds {close : σ → σ} {task : κ} (hown : m.owner i = some task)
    (hheld : m.Holds task j) :
    m.insert close i = { m with pending := m.pending.erase i }.change close i := by
  have hexists : m.manager.isExist task = true := by
    rw [LockMap.isExist, show m.manager.value.lookup task = some j from hheld]
    rfl
  have hsame : m.manager.insert task i = m.manager := by
    refine congrArg LockMap.mk (SortedMap.ext_lookup fun k => ?_)
    rw [SortedMap.lookup_insert, PartialMap.insert_of_some hheld]
  rw [insert, hown]
  dsimp only
  rw [if_pos hexists, hsame]

/-- A call of `Play` whose task has none: its stream is held. -/
theorem insert_of_free {close : σ → σ} {task : κ} (hown : m.owner i = some task)
    (hfree : m.manager.value.lookup task = none) :
    m.insert close i =
      { m with manager := m.manager.insert task i, pending := m.pending.erase i } := by
  have hexists : ¬m.manager.isExist task = true := by
    rw [LockMap.isExist, hfree]
    exact Bool.false_ne_true
  rw [insert, hown]
  dsimp only
  rw [if_neg hexists]

/-- What is held then. -/
theorem holds_insert_of_free {task task' : κ} {is : List ℕ}
    (hfree : m.manager.value.lookup task = none) :
    StreamManager.Holds { m with manager := m.manager.insert task i, pending := is } task' j ↔
      (task' = task ∧ j = i) ∨ (task' ≠ task ∧ m.Holds task' j) := by
  rw [Holds, LockMap.insert, SortedMap.lookup_insert, PartialMap.insert_of_none hfree]
  exact PartialMap.update_eq_some

theorem Sound.insert {close : σ → σ} (h : Sound closed m) (hclose : ∀ x, closed (close x))
    (hi : i ∈ m.pending) : Sound closed (m.insert close i) := by
  obtain ⟨task, hown⟩ := Option.isSome_iff_exists.mp (h.pending i hi)
  have hmem : ∀ {j}, j ∈ m.pending.erase i ↔ j ≠ i ∧ j ∈ m.pending := h.nodup.mem_erase_iff
  cases hlookup : m.manager.value.lookup task with
  | some j =>
    rw [insert_of_holds hown hlookup]
    refine ⟨fun hheld => ?_, fun k hk => ?_, h.nodup.erase i, fun {k x} hx hpending hfree => ?_⟩
    · obtain ⟨howner, hpending⟩ := h.held hheld
      rw [owner_change]
      exact ⟨howner, fun hk => hpending (hmem.mp hk).2⟩
    · rw [owner_change]
      exact h.pending k (hmem.mp hk).2
    · rw [state_change] at hx
      split_ifs at hx with hik
      · obtain ⟨y, -, rfl⟩ := Option.map_eq_some_iff.mp hx
        exact hclose y
      · exact h.closed hx (fun hk => hpending (hmem.mpr ⟨Ne.symm hik, hk⟩)) hfree
  | none =>
    rw [insert_of_free hown hlookup]
    have hholds : ∀ {task' k}, StreamManager.Holds
        { m with manager := m.manager.insert task i, pending := m.pending.erase i } task' k ↔
          (task' = task ∧ k = i) ∨ (task' ≠ task ∧ m.Holds task' k) :=
      holds_insert_of_free hlookup
    refine ⟨fun {task' k} hheld => ?_, fun k hk => h.pending k (hmem.mp hk).2, h.nodup.erase i,
      fun {k x} hx hpending hfree => ?_⟩
    · rcases hholds.mp hheld with ⟨rfl, rfl⟩ | ⟨-, hheld⟩
      · exact ⟨hown, fun hk => (hmem.mp hk).1 rfl⟩
      · exact ⟨(h.held hheld).1, fun hk => (h.held hheld).2 (hmem.mp hk).2⟩
    · have hne : k ≠ i := by
        rintro rfl
        exact hfree task (hholds.mpr (.inl ⟨rfl, rfl⟩))
      refine h.closed hx (fun hk => hpending (hmem.mpr ⟨hne, hk⟩)) fun task' hheld => ?_
      refine hfree task' (hholds.mpr (.inr ⟨?_, hheld⟩))
      rintro rfl
      rw [Holds, hlookup] at hheld
      cases hheld

/-! ### The state of a stream after a call -/

/-- A stream that the map holds is one of its values. -/
theorem mem_values : i ∈ m.manager.value.entries.map Prod.snd ↔ ∃ task, m.Holds task i := by
  rw [List.mem_map]
  constructor
  · rintro ⟨⟨task, i⟩, hentry, rfl⟩
    exact ⟨task, m.manager.value.mem_entries_iff.mp hentry⟩
  · rintro ⟨task, hheld⟩
    exact ⟨(task, i), m.manager.value.mem_entries_iff.mpr hheld, rfl⟩

/-- A call for all streams changes each of them once, -/
theorem Sound.state_forAll_of_holds (h : Sound closed m) {task : κ} (hheld : m.Holds task i) :
    (m.forAll f).state i = (m.state i).map f := by
  rw [forAll_eq, state_changeAll h.nodup_values, if_pos (mem_values.mpr ⟨task, hheld⟩)]

/-- and no other. -/
theorem Sound.state_forAll_of_free (h : Sound closed m) (hfree : ∀ task, ¬m.Holds task i) :
    (m.forAll f).state i = m.state i := by
  rw [forAll_eq, state_changeAll h.nodup_values, if_neg]
  exact fun hmem => Exists.elim (mem_values.mp hmem) hfree

theorem state_forTask_of_holds {task : κ} (hheld : m.Holds task i) :
    (m.forTask f task).state i = (m.state i).map f := by
  rw [forTask_eq, show m.manager.value.lookup task = some i from hheld]
  exact (state_change i).trans (if_pos rfl)

theorem state_forTask_of_free {task : κ} (hfree : ¬m.Holds task i) :
    (m.forTask f task).state i = m.state i := by
  rw [forTask_eq]
  cases hlookup : m.manager.value.lookup task with
  | none => rfl
  | some j =>
    refine (state_change i).trans (if_neg ?_)
    rintro rfl
    exact hfree hlookup

/-- The streams that are removed are closed once, and no other changes. -/
theorem Sound.state_deleteExpired {running : σ → Bool} {close : σ → σ} (h : Sound closed m) :
    (∀ task, m.Holds task i → (m.state i).any running = false →
      (m.deleteExpired running close).state i = (m.state i).map close) ∧
    ((∀ task, m.Holds task i → (m.state i).any running = true) →
      (m.deleteExpired running close).state i = m.state i) := by
  have hnodup : ((m.manager.value.entries.filter (m.expired running)).map Prod.snd).Nodup :=
    h.nodup_values.sublist (List.filter_sublist.map Prod.snd)
  have hmem : i ∈ (m.manager.value.entries.filter (m.expired running)).map Prod.snd ↔
      ∃ task, m.Holds task i ∧ (m.state i).any running = false := by
    rw [List.mem_map]
    constructor
    · rintro ⟨⟨task, i⟩, hentry, rfl⟩
      obtain ⟨hentry, hgone⟩ := List.mem_filter.mp hentry
      exact ⟨task, m.manager.value.mem_entries_iff.mp hentry, by simpa [expired] using hgone⟩
    · rintro ⟨task, hheld, hgone⟩
      refine ⟨(task, i), List.mem_filter.mpr ⟨m.manager.value.mem_entries_iff.mpr hheld, ?_⟩, rfl⟩
      rw [expired, hgone]
      rfl
  rw [StreamManager.deleteExpired, state_changeAll hnodup]
  constructor
  · exact fun task hheld hgone => if_pos (hmem.mpr ⟨task, hheld, hgone⟩)
  · refine fun hrunning => if_neg fun hin => ?_
    obtain ⟨task, hheld, hgone⟩ := hmem.mp hin
    rw [hrunning task hheld] at hgone
    cases hgone

/-- What may be done: an insertion by a call of `Play`, and an event where `E` allows it. -/
def Admissible (E : σ → σ → Prop) (m : StreamManager κ σ) : Act κ σ → Prop
  | .insert i => i ∈ m.pending
  | .event f i => ∃ x, m.state i = some x ∧ E x (f x)
  | _ => True

/-- **Whatever is done, each stream is held or closed.** -/
theorem Sound.act {running : σ → Bool} {close : σ → σ} {E : σ → σ → Prop} (h : Sound closed m)
    (hclose : ∀ x, closed (close x)) (hE : ∀ x y, E x y → closed x → closed y) {a : Act κ σ}
    (ha : m.Admissible E a) : Sound closed (m.act running close a) := by
  cases a with
  | deleteExpired => exact h.deleteExpired hclose
  | start task stream => exact h.start task stream
  | insert i => exact h.insert hclose ha
  | forAll f => exact h.forAll f
  | forTask f task => exact h.forTask f task
  | event f i =>
    obtain ⟨x, hx, hEx⟩ := ha
    refine h.change fun y hy hpending hfree => ?_
    rw [hx, Option.some.injEq] at hy
    subst hy
    exact hE x _ hEx (h.closed hx hpending hfree)

/-! ### What becomes of a stream -/

/-- The calls for running streams do to each what `T` allows. -/
def Act.Within (T : σ → σ → Prop) : Act κ σ → Prop
  | .forAll f => ∀ x, T x (f x)
  | .forTask f _ => ∀ x, T x (f x)
  | _ => True

/-- Each stream of one state is there in the other, and has become what `T` allows. -/
def Evolves (T : σ → σ → Prop) (m u : StreamManager κ σ) : Prop :=
  ∀ i x, m.state i = some x → ∃ y, u.state i = some y ∧ T x y

variable {T : σ → σ → Prop}

theorem Evolves.trans {u v : StreamManager κ σ} (htrans : ∀ {x y z}, T x y → T y z → T x z)
    (h : Evolves T m u) (h' : Evolves T u v) : Evolves T m v := by
  intro i x hx
  obtain ⟨y, hy, hxy⟩ := h i x hx
  obtain ⟨z, hz, hyz⟩ := h' i y hy
  exact ⟨z, hz, htrans hxy hyz⟩

theorem evolves_change (hrefl : ∀ x, T x x) (hf : ∀ x, m.state i = some x → T x (f x)) :
    Evolves T m (m.change f i) := by
  intro j x hx
  rw [state_change]
  split_ifs with hij
  · subst hij
    exact ⟨f x, by rw [hx]; rfl, hf x hx⟩
  · exact ⟨x, hx, hrefl x⟩

theorem evolves_changeAll (hrefl : ∀ x, T x x) (htrans : ∀ {x y z}, T x y → T y z → T x z)
    (hf : ∀ x, T x (f x)) : Evolves T m (m.changeAll f is) := by
  induction is generalizing m with
  | nil => exact fun i x hx => ⟨x, hx, hrefl x⟩
  | cons i is ih => exact (evolves_change hrefl fun x _ => hf x).trans htrans ih

/-- **Whatever is done**, each stream becomes what `T` allows. -/
theorem evolves_act {running : σ → Bool} {close : σ → σ} {E : σ → σ → Prop} (hrefl : ∀ x, T x x)
    (htrans : ∀ {x y z}, T x y → T y z → T x z) (hclose : ∀ x, T x (close x))
    (hE : ∀ x y, E x y → T x y) {a : Act κ σ} (ha : m.Admissible E a) (hwithin : a.Within T) :
    Evolves T m (m.act running close a) := by
  have hself : Evolves T m m := fun i x hx => ⟨x, hx, hrefl x⟩
  cases a with
  | deleteExpired =>
    exact evolves_changeAll (m := { m with manager := m.manager.removeIf (m.expired running) })
      hrefl htrans hclose
  | start task stream =>
    intro i x hx
    have hne : i ≠ m.streams.length := by
      rintro rfl
      have hsome := isSome_state (m := m) (i := m.streams.length)
      rw [hx, owner_length] at hsome
      cases hsome
    exact ⟨x, by rw [act, state_start, if_neg hne, hx], hrefl x⟩
  | insert i =>
    rw [act, insert]
    cases m.owner i with
    | none => exact hself
    | some task =>
      dsimp only
      split_ifs
      · exact evolves_change hrefl fun x _ => hclose x
      · exact hself
  | forAll f =>
    rw [act, forAll_eq]
    exact evolves_changeAll hrefl htrans hwithin
  | forTask f task =>
    rw [act, forTask_eq]
    cases m.manager.value.lookup task with
    | none => exact hself
    | some i => exact evolves_change hrefl fun x _ => hwithin x
  | event f i =>
    obtain ⟨x, hx, hEx⟩ := ha
    refine evolves_change hrefl fun y hy => ?_
    rw [hx, Option.some.injEq] at hy
    exact hE y _ (hy ▸ hEx)

/-- A stream has been there before, or has just been started. -/
theorem state_act {running : σ → Bool} {close : σ → σ} {a : Act κ σ} {y : σ}
    (h : (m.act running close a).state i = some y) :
    (m.state i).isSome ∨ ∃ task, a = .start task y := by
  have hown : ((m.act running close a).owner i).isSome := by
    rw [← isSome_state, h]
    rfl
  have hsame : (m.act running close a).owner i = m.owner i → (m.state i).isSome := by
    intro hsame
    rwa [isSome_state, ← hsame]
  cases a with
  | deleteExpired => exact .inl (hsame (owner_changeAll i))
  | start task stream =>
    rw [act, state_start] at h
    split_ifs at h
    · exact .inr ⟨task, congrArg _ (Option.some.inj h)⟩
    · exact .inl (by rw [h]; rfl)
  | insert j =>
    refine .inl (hsame ?_)
    rw [act, insert]
    cases m.owner j with
    | none => rfl
    | some task =>
      dsimp only
      split_ifs
      · exact owner_change i
      · rfl
  | forAll f =>
    refine .inl (hsame ?_)
    rw [act, forAll_eq]
    exact owner_changeAll i
  | forTask f task =>
    refine .inl (hsame ?_)
    rw [act, forTask_eq]
    cases m.manager.value.lookup task with
    | none => rfl
    | some j => exact owner_change i
  | event f j => exact .inl (hsame (owner_change i))

end StreamManager

end MToolkit

import MToolkit.Library.Agenda
import MToolkit.Library.Fallible
import MToolkit.Timer.Wheel

/-!
# The timing wheel is an agenda

What the wheel is for is `Agenda`: hold nodes, and at every tick hand over those
that have expired. This file proves that it does so, whatever the expiry times.

The invariant is `MToolkit.Timer.Placed`: a node of a near slot is due within the
next `2 ^ 8` ticks and in the slot of the tick it is due at, and a node of wheel
`w` is in the slot of its block, a block that **starts within one turn from now** –
possibly right now, in which case the cascade of that slot is about to run. Inside
a window of one turn the slot determines the block
(`CyclicBlocks.blockStart_eq_iff`), and that is all there is to the correctness of
the cascades: a slot is emptied exactly when the block of everything in it starts.

| step of the wheel | what it is for the agenda | theorem |
|---|---|---|
| `AddNode` | the node is inserted | `MToolkit.Timer.Wheel.addNode_spec` |
| `Cascade` | nothing | `MToolkit.Timer.Wheel.cascadeAt_spec` |
| `Executes` up to its loop | the expired are handed over | `MToolkit.Timer.Wheel.advance_spec` |
-/

namespace MToolkit

namespace Timer

open CyclicBlocks Buckets Fallible Lts

/-! ### Where a node may be -/

/-- A slot a node of the given expiry may be in at the given tick, before the
`Executes` of that tick. -/
def Placed (tick expire : ℤ) : Slot → Prop
  | .near i => expire < tick + 2 ^ timerNearBits ∧ i = index 0 timerNearBits (max expire tick)
  | .wheel w i => tick ≤ blockStart (wheelShift w) expire ∧
      blockStart (wheelShift w) expire < tick + 2 ^ (wheelShift w + timerWheelBits) ∧
      i = index (wheelShift w) timerWheelBits expire

/-- Whether the block of the slot is still to come; a near slot always is. -/
def Ahead (tick expire : ℤ) : Slot → Prop
  | .near _ => True
  | .wheel w _ => tick < blockStart (wheelShift w) expire

/-- A node between one block length and one turn away is in its place in the
wheel, and its block is still to come. -/
theorem placed_wheel {tick expire : ℤ} {w : Fin timerWheelNum} {s : ℕ} (hs : wheelShift w = s)
    (hlo : 2 ^ s ≤ expire - tick) (hhi : expire - tick < 2 ^ (s + timerWheelBits)) :
    Placed tick expire (.wheel w (index s timerWheelBits expire)) ∧
      Ahead tick expire (.wheel w (index s timerWheelBits expire)) := by
  subst hs
  have h₁ := lt_blockStart_add (wheelShift w) expire
  have h₂ := blockStart_le (wheelShift w) expire
  have hahead : tick < blockStart (wheelShift w) expire := by omega
  exact ⟨⟨hahead.le, by omega, rfl⟩, hahead⟩

/-- `AddNode` throws exactly when the node is more than `0xffffffff` ticks
ahead. -/
theorem addSlot_eq_none {tick expire : ℤ} :
    addSlot tick expire = none ↔ 0xffffffff < expire - tick := by
  simp only [addSlot]
  split_ifs <;>
    simp only [UnsignedLt, timerNearBits, timerWheelBits, true_iff, false_iff] at * <;>
    omega

/-- **Where `AddNode` puts a node**: in a place where it may be, and whose block is
still to come. -/
theorem placed_of_addSlot {tick expire : ℤ} {slot : Slot} (h : addSlot tick expire = some slot) :
    Placed tick expire slot ∧ Ahead tick expire slot := by
  simp only [addSlot] at h
  split_ifs at h with h₀ h₁ h₂ h₃ hneg h₄ <;> obtain rfl := Option.some.inj h <;>
    simp only [UnsignedLt, timerNearBits, timerWheelBits] at *
  · refine ⟨⟨by rw [timerNearBits]; omega, ?_⟩, trivial⟩
    rw [max_eq_left (by omega)]
  · exact placed_wheel (s := 8) rfl (by omega) (by rw [timerWheelBits]; omega)
  · exact placed_wheel (s := 14) rfl (by omega) (by rw [timerWheelBits]; omega)
  · exact placed_wheel (s := 20) rfl (by omega) (by rw [timerWheelBits]; omega)
  · refine ⟨⟨by rw [timerNearBits]; omega, ?_⟩, trivial⟩
    rw [max_eq_right (by omega)]
  · exact placed_wheel (s := 26) rfl (by omega) (by rw [timerWheelBits]; omega)

/-! ### The near slot of the tick -/

/-- A node of a near slot is in the slot of the current tick exactly when it has
expired. -/
theorem Placed.near_iff {tick expire : ℤ} {i : Fin (2 ^ timerNearBits)}
    (h : Placed tick expire (.near i)) : i = index 0 timerNearBits tick ↔ expire ≤ tick := by
  obtain ⟨hlt, rfl⟩ := h
  have hlt' : max expire tick < tick + 2 ^ timerNearBits :=
    max_lt hlt (lt_add_of_pos_right _ (by simp))
  have hwin := blockStart_eq_iff (s := 0) (b := timerNearBits) (t := tick) (e := max expire tick)
    (by simp) (by rwa [blockStart_zero, zero_add])
  rw [blockStart_zero] at hwin
  simp only [pow_zero, one_dvd, true_and] at hwin
  rw [← hwin]
  exact max_eq_right_iff

/-- A node that has not expired is still in place at the next tick, unless its
block starts now. -/
theorem Placed.next {tick expire : ℤ} {slot : Slot} (h : Placed tick expire slot)
    (ha : Ahead tick expire slot) (he : tick < expire) : Placed (tick + 1) expire slot := by
  cases slot with
  | near i =>
    obtain ⟨hlt, hi⟩ := h
    refine ⟨by omega, ?_⟩
    rwa [max_eq_left he.le, ← max_eq_left (Int.add_one_le_of_lt he)] at hi
  | wheel w i =>
    obtain ⟨-, hlt, hi⟩ := h
    exact ⟨ha, by omega, hi⟩

namespace Wheel

variable {α : Type}

/-- Every node is in a slot it may be in. -/
def Ok (m : Wheel α) : Prop := ∀ slot, ∀ x ∈ m.slots slot, Placed m.tickTime (m.expire x) slot

/-- The blocks of everything in the wheels below `k` are still to come. -/
def Swept (k : ℕ) (m : Wheel α) : Prop :=
  ∀ w : Fin timerWheelNum, (w : ℕ) < k → ∀ i, ∀ x ∈ m.slots (.wheel w i),
    Ahead m.tickTime (m.expire x) (.wheel w i)

theorem ok_init (expire : α → ℤ) : (init expire).Ok := by
  intro slot x hx
  simp [init] at hx

variable {m : Wheel α}

/-! ### Insertion -/

/-- **What `AddNode` does**: within the limit it inserts the node, in a slot where
it may be and whose block is still to come. -/
theorem addNode_spec (hm : m.Ok) {x : α} (hx : m.expire x - m.tickTime ≤ 0xffffffff) :
    ∃ slots, m.addNode x = .ok { m with slots := slots } ∧
      contents slots = x ::ₘ contents m.slots ∧
      Ok { m with slots := slots } ∧ ∀ k, m.Swept k → Swept k { m with slots := slots } := by
  rcases hs : addSlot m.tickTime (m.expire x) with _ | slot
  · exact absurd (addSlot_eq_none.mp hs) (not_lt.mpr hx)
  · obtain ⟨hplaced, hahead⟩ := placed_of_addSlot hs
    refine ⟨push m.slots slot x, by rw [addNode, hs], contents_push _ _ _, ?_, ?_⟩
    · intro slot' y hy
      rcases mem_push.mp hy with hy' | ⟨rfl, rfl⟩
      · exact hm slot' y hy'
      · exact hplaced
    · intro k hk w hw i y hy
      rcases mem_push.mp hy with hy' | ⟨rfl, rfl⟩
      · exact hk w hw i y hy'
      · exact hahead

/-- Beyond the limit `AddNode` throws. -/
theorem addNode_eq_error {x : α} :
    m.addNode x = .error .intervalLimit ↔ 0xffffffff < m.expire x - m.tickTime := by
  rw [← addSlot_eq_none, addNode]
  split <;> simp_all

/-- Inserting a list of nodes, as a cascade does. -/
theorem addAll_spec (l : List α) :
    ∀ {m : Wheel α}, m.Ok → (∀ x ∈ l, m.expire x - m.tickTime ≤ 0xffffffff) →
      ∃ slots, l.foldlM addNode m = .ok { m with slots := slots } ∧
        contents slots = contents m.slots + l ∧
        Ok { m with slots := slots } ∧ ∀ k, m.Swept k → Swept k { m with slots := slots } := by
  induction l with
  | nil => exact fun {m} hm _ => ⟨m.slots, rfl, by simp, hm, fun _ hk => hk⟩
  | cons x l ih =>
    intro m hm hl
    rw [List.forall_mem_cons] at hl
    obtain ⟨slots₁, hadd, hc₁, hok₁, hsw₁⟩ := addNode_spec hm hl.1
    obtain ⟨slots₂, hrest, hc₂, hok₂, hsw₂⟩ := ih hok₁ hl.2
    refine ⟨slots₂, ?_, ?_, hok₂, fun k hk => hsw₂ k (hsw₁ k hk)⟩
    · rw [List.foldlM_cons, hadd]
      exact hrest
    · rw [hc₂]
      change contents slots₁ + (l : Multiset α) = _
      rw [hc₁, Multiset.cons_add, ← Multiset.add_cons, Multiset.cons_coe]

/-! ### Cascades -/

/-- **What a cascade does**: at a tick aligned to its wheel it moves the nodes of
the slot whose block starts, and loses none; afterwards the blocks of that wheel
are all still to come. -/
theorem cascadeAt_spec (hm : m.Ok) {w : Fin timerWheelNum} {k : ℕ} (hw : w = k) (hk : m.Swept k)
    (hdvd : (2 : ℤ) ^ wheelShift k ∣ m.tickTime) :
    ∃ slots, m.cascadeAt w =
        .ok (decide ((2 : ℤ) ^ wheelShift (k + 1) ∣ m.tickTime), { m with slots := slots }) ∧
      contents slots = contents m.slots ∧
      Ok { m with slots := slots } ∧ Swept (k + 1) { m with slots := slots } := by
  subst hw
  set idx := index (wheelShift w) timerWheelBits m.tickTime with hidx
  have hclear : Ok { m with slots := clear m.slots (.wheel w idx) } := fun slot x hx =>
    hm slot x (mem_clear.mp hx).1
  -- the nodes of the slot are those whose block starts now
  have hslot : ∀ i, ∀ x ∈ m.slots (.wheel w i),
      i = idx ↔ blockStart (wheelShift w) (m.expire x) = m.tickTime := by
    intro i x hx
    obtain ⟨h₁, h₂, rfl⟩ := hm _ x hx
    rw [blockStart_eq_iff h₁ h₂]
    exact (and_iff_right hdvd).symm
  have hlimit : ∀ x ∈ m.slots (.wheel w idx), m.expire x - m.tickTime ≤ 0xffffffff := by
    intro x hx
    have hstart := (hslot idx x hx).mp rfl
    have hlt := lt_blockStart_add (wheelShift w) (m.expire x)
    have hpow : (2 : ℤ) ^ wheelShift w ≤ 2 ^ 26 :=
      pow_le_pow_right₀ (by norm_num) (by have : (w : ℕ) < 4 := w.isLt; rw [wheelShift_eq]; omega)
    omega
  obtain ⟨slots, hadd, hc, hok, hsw⟩ := addAll_spec (m.slots (.wheel w idx)) hclear hlimit
  refine ⟨slots, ?_, ?_, hok, ?_⟩
  · have hzero : ((2 : ℤ) ^ wheelShift (w + 1) ∣ m.tickTime) ↔ (idx : ℕ) = 0 := by
      rw [← dvd_add_iff hdvd]
      exact Iff.of_eq (by simp only [wheelShift]; ring_nf)
    rw [cascadeAt, cascade, ← hidx, hadd]
    simp only [hzero]
    rfl
  · exact hc.trans (contents_clear m.slots _)
  · refine hsw _ fun v hv i x hx => ?_
    obtain ⟨hx', hne⟩ := mem_clear.mp hx
    rcases Nat.lt_succ_iff_lt_or_eq.mp hv with hlt | heq
    · exact hk v hlt i x hx'
    · obtain rfl : v = w := Fin.ext heq
      have hi : i ≠ idx := fun hc => hne (hc ▸ rfl)
      exact lt_of_le_of_ne (hm _ x hx').1 fun hc => hi ((hslot i x hx').mpr hc.symm)

/-- Where the tick is not aligned to a wheel, no block of that wheel or of the
wheels above it starts now. -/
theorem swept_of_not_dvd (hm : m.Ok) {k : ℕ} (hk : m.Swept k)
    (hdvd : ¬(2 : ℤ) ^ wheelShift k ∣ m.tickTime) : m.Swept timerWheelNum := by
  intro v _ i x hx
  rcases Nat.lt_or_ge v k with hlt | hge
  · exact hk v hlt i x hx
  · refine lt_of_le_of_ne (hm _ x hx).1 fun hc => hdvd ?_
    rw [hc]
    exact (pow_dvd_pow 2 (by rw [wheelShift_eq, wheelShift_eq]; omega)).trans (dvd_blockStart _ _)

/-- **What the nested cascades do**: nothing is lost, and afterwards every block is
still to come – a wheel that is not reached had no block starting now. -/
theorem cascades_spec (hm : m.Ok) (hdvd : (2 : ℤ) ^ wheelShift 0 ∣ m.tickTime) :
    ∃ slots, m.cascades = .ok { m with slots := slots } ∧ contents slots = contents m.slots ∧
      Ok { m with slots := slots } ∧ Swept timerWheelNum { m with slots := slots } := by
  have hsw : m.Swept 0 := fun v hv => absurd hv (Nat.not_lt_zero _)
  obtain ⟨s₀, h₀, hc₀, hok₀, hsw₀⟩ := cascadeAt_spec hm (w := 0) (k := 0) rfl hsw hdvd
  by_cases hd₁ : (2 : ℤ) ^ wheelShift 1 ∣ m.tickTime
  swap
  · exact ⟨s₀, by simp [cascades, h₀, hd₁], hc₀, hok₀, swept_of_not_dvd hok₀ hsw₀ hd₁⟩
  obtain ⟨s₁, h₁, hc₁, hok₁, hsw₁⟩ := cascadeAt_spec hok₀ (w := 1) (k := 1) rfl hsw₀ hd₁
  by_cases hd₂ : (2 : ℤ) ^ wheelShift 2 ∣ m.tickTime
  swap
  · exact ⟨s₁, by simp [cascades, h₀, hd₁, h₁, hd₂], hc₁.trans hc₀, hok₁,
      swept_of_not_dvd hok₁ hsw₁ hd₂⟩
  obtain ⟨s₂, h₂, hc₂, hok₂, hsw₂⟩ := cascadeAt_spec hok₁ (w := 2) (k := 2) rfl hsw₁ hd₂
  by_cases hd₃ : (2 : ℤ) ^ wheelShift 3 ∣ m.tickTime
  swap
  · exact ⟨s₂, by simp [cascades, h₀, hd₁, h₁, hd₂, h₂, hd₃], hc₂.trans (hc₁.trans hc₀), hok₂,
      swept_of_not_dvd hok₂ hsw₂ hd₃⟩
  obtain ⟨s₃, h₃, hc₃, hok₃, hsw₃⟩ := cascadeAt_spec hok₂ (w := 3) (k := 3) rfl hsw₂ hd₃
  exact ⟨s₃, by simp [cascades, h₀, hd₁, h₁, hd₂, h₂, hd₃, h₃],
    hc₃.trans (hc₂.trans (hc₁.trans hc₀)), hok₃, hsw₃⟩

/-! ### The first half of `Executes` -/

/-- **What `Executes` hands to its loop**: the nodes that have expired, once each
as often as they are held, the others staying in slots where they may be at the
next tick. This is the step of an agenda. -/
theorem advance_spec (hm : m.Ok) :
    ∃ handed slots, m.advance =
        .ok (handed, { m with tickTime := m.tickTime + 1, slots := slots }) ∧
      Ok { m with tickTime := m.tickTime + 1, slots := slots } ∧
      (handed : Multiset α) = (contents m.slots).filter (fun x => m.expire x ≤ m.tickTime) ∧
      contents slots = (contents m.slots).filter (fun x => m.tickTime < m.expire x) := by
  set idx := index 0 timerNearBits m.tickTime with hidx
  -- the state after the cascades, whether or not they run
  obtain ⟨s, hs, hc, hok, hsw⟩ : ∃ s,
      (if (idx : ℕ) = 0 then m.cascades else pure m) = .ok { m with slots := s } ∧
        contents s = contents m.slots ∧ Ok { m with slots := s } ∧
        Swept timerWheelNum { m with slots := s } := by
    have hdvd : (2 : ℤ) ^ wheelShift 0 ∣ m.tickTime ↔ (idx : ℕ) = 0 := by
      rw [wheelShift_eq, hidx, ← dvd_add_iff (one_dvd m.tickTime : (2 : ℤ) ^ 0 ∣ m.tickTime)]
      rfl
    by_cases h0 : (idx : ℕ) = 0
    · rw [if_pos h0]
      exact cascades_spec hm (hdvd.mpr h0)
    · rw [if_neg h0]
      exact ⟨m.slots, rfl, rfl, hm,
        swept_of_not_dvd hm (k := 0) (fun v hv => absurd hv (Nat.not_lt_zero _))
          fun hc => h0 (hdvd.mp hc)⟩
  -- of the nodes held, those in the slot of the tick have expired and the others have not
  have hnow : ∀ x ∈ s (.near idx), m.expire x ≤ m.tickTime := fun x hx =>
    (Placed.near_iff (hok _ x hx)).mp rfl
  have hkept : ∀ slot, ∀ x ∈ clear s (.near idx) slot, m.tickTime < m.expire x ∧
      Ahead m.tickTime (m.expire x) slot := by
    intro slot x hx
    obtain ⟨hx', hne⟩ := mem_clear.mp hx
    cases slot with
    | near i =>
      refine ⟨not_le.mp fun hc => hne ?_, trivial⟩
      rw [(Placed.near_iff (hok _ x hx')).mpr hc]
    | wheel w i =>
      have hahead := hsw w w.isLt i x hx'
      exact ⟨hahead.trans_le (blockStart_le _ _), hahead⟩
  have hlater : ∀ x ∈ contents (clear s (.near idx)), m.tickTime < m.expire x := by
    intro x hx
    obtain ⟨slot, hx'⟩ := mem_contents.mp hx
    exact (hkept slot x hx').1
  have hsplit : contents m.slots = contents (clear s (.near idx)) + s (.near idx) := by
    rw [contents_clear, hc]
  refine ⟨s (.near idx), clear s (.near idx), ?_, ?_, ?_, ?_⟩
  · rw [advance, ← hidx]
    simp only [hs, ok_bind]
    rfl
  · intro slot x hx
    exact (hok slot x (mem_clear.mp hx).1).next (hkept slot x hx).2 (hkept slot x hx).1
  · rw [hsplit, Multiset.filter_add,
      Multiset.filter_eq_nil.mpr fun x hx => not_le.mpr (hlater x hx), zero_add,
      Multiset.filter_eq_self.mpr hnow]
  · rw [hsplit, Multiset.filter_add, Multiset.filter_eq_self.mpr hlater,
      Multiset.filter_eq_nil.mpr fun x hx => not_lt.mpr (hnow x hx), add_zero]

/-! ### The simulation -/

variable [DecidableEq α]

/-- The agenda a wheel stands for. -/
def agenda (m : Wheel α) : Agenda.State α where
  tick := m.tickTime
  expire := m.expire
  pending := contents m.slots

/-- What a step of the wheel is for its agenda. -/
def Label.agenda : Label α → Agenda.Label α
  | .addNode x => .add x
  | .touch x e => .touch x e
  | .executes handed => .advance handed

/-- **One step**: the wheel stays in order, and does to its agenda what an agenda
does. -/
theorem Step.simulates {m m' : Wheel α} {l : Label α} (hm : m.Ok) (h : Step m l m') :
    m'.Ok ∧ Agenda.Step m.agenda l.agenda m'.agenda := by
  cases h with
  | @addNode _ x hadd =>
    have hlimit : m.expire x - m.tickTime ≤ 0xffffffff := by
      by_contra hc
      rw [addNode_eq_error.mpr (not_le.mp hc)] at hadd
      cases hadd
    obtain ⟨slots, hadd', hcont, hok, -⟩ := addNode_spec hm hlimit
    obtain rfl := Except.ok.inj (hadd.symm.trans hadd')
    refine ⟨hok, ?_⟩
    rw [show agenda { m with slots := slots } = _ from congrArg (Agenda.State.mk _ _) hcont]
    exact .add
  | @touch x e hx =>
    refine ⟨fun slot y hy => ?_, .touch hx⟩
    have hne : y ≠ x := fun hc => hx (mem_contents.mpr ⟨slot, hc ▸ hy⟩)
    simpa [Function.update_of_ne hne] using hm slot y hy
  | executes hadv =>
    obtain ⟨handed, slots, hadv', hok, hh, hcont⟩ := advance_spec hm
    obtain ⟨rfl, rfl⟩ := Prod.mk.inj (Except.ok.inj (hadv.symm.trans hadv'))
    refine ⟨hok, ?_⟩
    rw [Label.agenda, hh, show agenda { m with tickTime := m.tickTime + 1, slots := slots } = _ from
      congrArg (Agenda.State.mk _ _) hcont]
    exact .advance

/-- **The wheel refines the agenda**: every run of a wheel in order is a run of its
agenda. -/
theorem run_agenda {m u : Wheel α} {ls : List (Label α)} (hm : m.Ok) (h : Run Step m ls u) :
    u.Ok ∧ Run Agenda.Step m.agenda (ls.map Label.agenda) u.agenda := by
  have hsim : ∀ {s : Wheel α} {l u a}, (s.Ok ∧ s.agenda = a) → Step s l u →
      ∃ b, Run Agenda.Step a [l.agenda] b ∧ u.Ok ∧ u.agenda = b := by
    rintro s l u _ ⟨hok, rfl⟩ hs
    obtain ⟨hok', hs'⟩ := hs.simulates hok
    exact ⟨_, .single hs', hok', rfl⟩
  obtain ⟨b, hb, hok, rfl⟩ := h.simulate (R := fun s a => s.Ok ∧ s.agenda = a)
    (f := fun l => [l.agenda]) hsim ⟨hm, rfl⟩
  exact ⟨hok, by rwa [← List.map_eq_flatMap] at hb⟩

/-- The wheels that `AddNode` and `Executes` calls lead to. -/
def Reachable (m : Wheel α) : Prop :=
  ∃ (expire : α → ℤ) (ls : List (Label α)), Run Step (init expire) ls m

theorem Reachable.ok (hm : m.Reachable) : m.Ok := by
  obtain ⟨expire, ls, h⟩ := hm
  exact (run_agenda (ok_init expire) h).1

end Wheel

end Timer

end MToolkit

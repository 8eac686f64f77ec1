import MToolkit.Library.LinkedRing
import MToolkit.Library.Lts

/-!
# Containers of linked cells

What `Queue` and `Stack` have in common: elements are put in at one end and taken out at one of
the two (`MToolkit.Discipline`). A container keeps its elements in a ring behind a head
(`LinkedRing.Stores`), and where each of its programs does what it should there
(`MToolkit.Container.Correct`) the container behaves
(`MToolkit.Container.Correct.meets`): whatever is called, in whatever order, its ring stays
well formed, it gives the answers of the discipline and can be destroyed.
-/

namespace MToolkit

open LinkedRing Lts

variable {α : Type}

/-! ### Disciplines -/

/-- Which of the things held, the newest first, is taken out, and what is held then. It does not
depend on what they are. -/
structure Discipline where
  take : {β : Type} → List β → Option (β × List β)
  take_nil : ∀ {β : Type}, take ([] : List β) = none
  take_cons : ∀ {β : Type} (b : β) (held : List β),
    ∃ c rest, take (b :: held) = some (c, rest) ∧ rest.length = held.length
  take_map : ∀ {β γ : Type} (f : β → γ) {held rest : List β} {b : β},
    take held = some (b, rest) → take (held.map f) = some (f b, rest.map f)

/-- First in, first out. -/
def fifo : Discipline where
  take held := held.getLast?.map fun b => (b, held.dropLast)
  take_nil := rfl
  take_cons b held := ⟨_, _, by rw [List.getLast?_cons]; rfl, by simp⟩
  take_map f held rest b htake := by
    obtain ⟨c, hlast, hc⟩ := Option.map_eq_some_iff.1 htake
    obtain ⟨rfl, rfl⟩ := Prod.mk.injEq .. ▸ hc
    rw [List.getLast?_map, hlast, ← List.map_dropLast]
    rfl

/-- Last in, first out. -/
def lifo : Discipline where
  take
    | [] => none
    | b :: held => some (b, held)
  take_nil := rfl
  take_cons b held := ⟨b, held, rfl, rfl⟩
  take_map f held rest b htake := by
    rcases held with _ | ⟨c, held⟩
    · exact absurd htake (by simp)
    · obtain ⟨rfl, rfl⟩ := Prod.mk.injEq .. ▸ Option.some_injective _ htake
      rfl

theorem fifo_take {β : Type} {held rest : List β} {b : β} :
    fifo.take held = some (b, rest) ↔ held = rest ++ [b] := by
  constructor
  · intro htake
    obtain ⟨c, hlast, hc⟩ := Option.map_eq_some_iff.1 htake
    obtain ⟨rfl, rfl⟩ := Prod.mk.injEq .. ▸ hc
    obtain ⟨front, rfl⟩ := List.getLast?_eq_some_iff.1 hlast
    rw [List.dropLast_concat]
  · rintro rfl
    change Option.map _ (rest ++ [b]).getLast? = _
    rw [List.getLast?_concat, Option.map_some, List.dropLast_concat]

theorem lifo_take {β : Type} {held rest : List β} {b : β} :
    lifo.take held = some (b, rest) ↔ held = b :: rest := by
  rcases held with _ | ⟨c, held⟩
  · simp [lifo]
  · simp [lifo]

/-- A call, with its answer. -/
inductive Call (α : Type)
  /-- `Push(data)`, and the node that is allocated for it. -/
  | push (ins : Addr) (data : α)
  /-- `Pop(data)`, with what is returned and what `data` is then. -/
  | popInto (data : α) (answer : Bool × α)
  /-- `Pop()`, with what is returned. -/
  | pop (answer : Bool)

/-- **What a discipline answers**, on the elements held, the newest first. -/
inductive Discipline.Step (d : Discipline) : List α → Call α → List α → Prop
  | push (held : List α) (ins : Addr) (data : α) : Step d held (.push ins data) (data :: held)
  /-- An element is taken out and handed over. -/
  | popInto {held rest : List α} {v : α} (data : α) (htake : d.take held = some (v, rest)) :
      Step d held (.popInto data (true, v)) rest
  /-- There is none. -/
  | popInto_nil (data : α) : Step d [] (.popInto data (false, data)) []
  | pop {held rest : List α} {v : α} (htake : d.take held = some (v, rest)) :
      Step d held (.pop true) rest
  | pop_nil : Step d [] (.pop false) []

/-! ### The nodes

A node is known by the address of its links, a `ListNode`: the source gets from there to the
node they are in by a constant offset. -/

/-- `nullptr`. -/
def nullptr : Addr := 0

/-- `new ListNode()`: a cell that has links and nothing else. -/
def newListNode : Cell α where
  next := nullptr
  prev := nullptr
  data := none

/-- `new QueueNode()` or `new StackNode()`: a cell that has links and the default element. -/
def newNode [Inhabited α] : Cell α where
  next := nullptr
  prev := nullptr
  data := some default

/-! ### Containers -/

/-- The programs of a container, from the address of its head on. -/
structure Container (α : Type) where
  construct : Addr → Prog α Unit
  push : Addr → Addr → α → Prog α Unit
  popInto : Addr → α → Prog α (Bool × α)
  pop : Addr → Prog α Bool

namespace Container

variable (c : Container α) (d : Discipline) (head : Addr)

/-- The loop of the destructor, `while (Pop()) {}`. -/
def drain : ℕ → Prog α Unit
  | 0 => failure
  | fuel + 1 => do
    if ← c.pop head then drain fuel

/-- The destructor. -/
def destroy (fuel : ℕ) : Prog α Unit := do
  c.drain head fuel
  delete head

/-- A call on the heap. -/
inductive Step : Heap α → Call α → Heap α → Prop
  /-- The node is one that was free. -/
  | push {h h' : Heap α} {ins : Addr} {data : α} (hins : h ins = none)
      (hpush : c.push head ins data h = some ((), h')) : Step h (.push ins data) h'
  | popInto {h h' : Heap α} {data : α} {answer : Bool × α}
      (hpop : c.popInto head data h = some (answer, h')) : Step h (.popInto data answer) h'
  | pop {h h' : Heap α} {answer : Bool} (hpop : c.pop head h = some (answer, h')) :
      Step h (.pop answer) h'

/-- Every call returns: none of them reads, writes or frees what is not allocated. -/
structure Returns (h : Heap α) : Prop where
  push : ∀ ins data, h ins = none → ∃ h', c.push head ins data h = some ((), h')
  popInto : ∀ data, ∃ answer h', c.popInto head data h = some (answer, h')
  pop : ∃ answer h', c.pop head h = some (answer, h')

/-- **The container behaves.** Constructed on any heap, it may be called in any order. The calls
return and answer as the discipline does; the ring is well formed; and the destructor ends, with
the heap as it was before there was a container. -/
def Behaves : Prop :=
  ∀ (h₀ : Heap α) (head : Addr), h₀ head = none →
    ∃ h, c.construct head h₀ = some ((), h) ∧
      ∀ calls h', Run (c.Step head) h calls h' →
        Formed h' head ∧ c.Returns head h' ∧ (∃ held, Run d.Step [] calls held) ∧
          ∃ fuel, c.destroy head fuel h' = some ((), h₀)

/-- **The programs do what they should** on the ring of a container. -/
structure Correct : Prop where
  construct : ∀ {h₀ : Heap α} {head : Addr}, h₀ head = none →
    ∃ h, c.construct head h₀ = some ((), h) ∧ Stores h₀ h head []
  push : ∀ {h₀ h : Heap α} {head ins : Addr} {cells : List (Addr × α)},
    Stores h₀ h head cells → h ins = none → ∀ data,
      ∃ h', c.push head ins data h = some ((), h') ∧ Stores h₀ h' head ((ins, data) :: cells)
  popInto : ∀ {h₀ h : Heap α} {head ins : Addr} {v : α} {cells rest : List (Addr × α)},
    Stores h₀ h head cells → d.take cells = some ((ins, v), rest) → ∀ data,
      ∃ h', c.popInto head data h = some ((true, v), h') ∧ Stores h₀ h' head rest
  popInto_nil : ∀ {h₀ h : Heap α} {head : Addr}, Stores h₀ h head [] → ∀ data,
    c.popInto head data h = some ((false, data), h)
  pop : ∀ {h₀ h : Heap α} {head ins : Addr} {v : α} {cells rest : List (Addr × α)},
    Stores h₀ h head cells → d.take cells = some ((ins, v), rest) →
      ∃ h', c.pop head h = some (true, h') ∧ Stores h₀ h' head rest
  pop_nil : ∀ {h₀ h : Heap α} {head : Addr}, Stores h₀ h head [] →
    c.pop head h = some (false, h)

variable {c d head}
variable {h₀ h h' : Heap α} {cells : List (Addr × α)} {call : Call α}

theorem Correct.returns (hc : c.Correct d) (hs : Stores h₀ h head cells) : c.Returns head h := by
  refine ⟨fun ins data hins => ?_, fun data => ?_, ?_⟩
  · obtain ⟨h', hpush, -⟩ := hc.push hs hins data
    exact ⟨h', hpush⟩
  · rcases cells with _ | ⟨b, cells⟩
    · exact ⟨_, _, hc.popInto_nil hs data⟩
    · obtain ⟨⟨ins, v⟩, rest, htake, -⟩ := d.take_cons b cells
      obtain ⟨h', hpop, -⟩ := hc.popInto hs htake data
      exact ⟨_, h', hpop⟩
  · rcases cells with _ | ⟨b, cells⟩
    · exact ⟨_, _, hc.pop_nil hs⟩
    · obtain ⟨⟨ins, v⟩, rest, htake, -⟩ := d.take_cons b cells
      obtain ⟨h', hpop, -⟩ := hc.pop hs htake
      exact ⟨_, h', hpop⟩

/-- **A call answers as the discipline does**, and leaves a ring of what is held then. -/
theorem Correct.step (hc : c.Correct d) (hs : Stores h₀ h head cells)
    (hstep : c.Step head h call h') :
    ∃ cells', d.Step (cells.map Prod.snd) call (cells'.map Prod.snd) ∧
      Stores h₀ h' head cells' := by
  rcases hstep with ⟨hins, hpush⟩ | hpop | hpop
  · rename_i ins data
    obtain ⟨h₁, hpush', hs'⟩ := hc.push hs hins data
    obtain ⟨-, rfl⟩ := result_unique hpush hpush'
    exact ⟨_, .push _ ins data, hs'⟩
  · rename_i data answer
    rcases cells with _ | ⟨b, cells⟩
    · obtain ⟨rfl, rfl⟩ := result_unique hpop (hc.popInto_nil hs data)
      exact ⟨[], .popInto_nil data, hs⟩
    · obtain ⟨⟨ins, v⟩, rest, htake, -⟩ := d.take_cons b cells
      obtain ⟨h₁, hpop', hs'⟩ := hc.popInto hs htake data
      obtain ⟨rfl, rfl⟩ := result_unique hpop hpop'
      exact ⟨rest, .popInto data (d.take_map Prod.snd htake), hs'⟩
  · rcases cells with _ | ⟨b, cells⟩
    · obtain ⟨rfl, rfl⟩ := result_unique hpop (hc.pop_nil hs)
      exact ⟨[], .pop_nil, hs⟩
    · obtain ⟨⟨ins, v⟩, rest, htake, -⟩ := d.take_cons b cells
      obtain ⟨h₁, hpop', hs'⟩ := hc.pop hs htake
      obtain ⟨rfl, rfl⟩ := result_unique hpop hpop'
      exact ⟨rest, .pop (d.take_map Prod.snd htake), hs'⟩

/-- The loop of the destructor takes out all that is held. -/
theorem Correct.drain (hc : c.Correct d) : ∀ {cells : List (Addr × α)} {h : Heap α},
    Stores h₀ h head cells →
      ∃ h', c.drain head (cells.length + 1) h = some ((), h') ∧ Stores h₀ h' head []
  | [], h, hs => ⟨h, by rw [Container.drain, bind_eq (hc.pop_nil hs)]; rfl, hs⟩
  | b :: cells, h, hs => by
    obtain ⟨⟨ins, v⟩, rest, htake, hlen⟩ := d.take_cons b cells
    obtain ⟨h₁, hpop, hs₁⟩ := hc.pop hs htake
    obtain ⟨h', hdrain, hs'⟩ := Correct.drain hc hs₁
    refine ⟨h', ?_, hs'⟩
    rw [Container.drain, bind_eq hpop, List.length_cons, ← hlen]
    exact hdrain
termination_by cells => cells.length

/-- **Destroying the container** leaves the heap as it was before. -/
theorem Correct.destroy (hc : c.Correct d) (hs : Stores h₀ h head cells) :
    c.destroy head (cells.length + 1) h = some ((), h₀) := by
  obtain ⟨h', hdrain, hs'⟩ := hc.drain hs
  rw [Container.destroy, bind_eq hdrain]
  exact hs'.delete_head

/-- **A container whose programs do what they should behaves.** -/
theorem Correct.meets (hc : c.Correct d) : c.Behaves d := by
  intro h₀ head hhead
  obtain ⟨h, hconstruct, hinit⟩ := hc.construct hhead
  refine ⟨h, hconstruct, fun calls h' hrun => ?_⟩
  obtain ⟨held, habs, cells, hs, -⟩ := hrun.refine
    (R := fun h held => ∃ cells, Stores h₀ h head cells ∧ cells.map Prod.snd = held)
    (fun ⟨cells, hs, hcells⟩ hstep => by
      obtain ⟨cells', hstep', hs'⟩ := hc.step hs hstep
      exact ⟨_, hcells ▸ hstep', cells', hs', rfl⟩) ⟨[], hinit, rfl⟩
  exact ⟨hs.ring.formed, hc.returns hs, ⟨held, habs⟩, _, hc.destroy hs⟩

end Container

end MToolkit

import MToolkit.Efficient.Container

/-!
# The intrusive list

`INSTWLinkList` of `instwlinklist.h` over the links of `twlinklist.cpp`, on an explicit heap. The
traversals are loops over the ring (`LinkedRing.loop`), two of which take nodes out of it while
they go along. What is in the list is what it should be after every call, and the traversals end
(`MToolkit.INSTWLinkList.behaves`); the length, though, is counted in 32 bits
(`MToolkit.INSTWLinkList.size_wraps`).
-/

namespace MToolkit

open LinkedRing Lts

variable {α : Type}

namespace TWLinkList

/-- `Initialize`, the links of a node to itself. -/
def initializeNode (node : Addr) : Prog α Unit := do
  setPrev node node
  setNext node node

/-- `DestroyNode`, which frees nothing. -/
def destroyNode (entry : Addr) : Prog α Unit := do
  setNext (← getPrev entry) (← getNext entry)
  setPrev (← getNext entry) (← getPrev entry)

/-- `InsertTWLinkList`. -/
def insertTWLinkList (nnew prev next : Addr) : Prog α Unit := do
  setPrev next nnew
  setNext nnew next
  setNext prev nnew
  setPrev nnew prev

/-- `InsertBack`. -/
def insertBack (head nnew : Addr) : Prog α Unit := do
  insertTWLinkList nnew (← getPrev head) head

/-- `InsertFront`. -/
def insertFront (head nnew : Addr) : Prog α Unit := do
  insertTWLinkList nnew head (← getNext head)

variable {h g : Heap α} {p e n : Addr} {v : α}

/-- The links of a node are read again after the first has been written. -/
theorem destroyNode_eq (hu : Unlinkable h p e n v) :
    destroyNode e h = some ((), withPrev (withNext h p n) n p) := by
  have hnext : nextOf (withNext h p n) e = some n := by
    rw [nextOf_withNext hu.before, if_neg hu.before_ne.symm, hu.next]
  have hprev : prevOf (withNext h p n) e = some p := by
    rw [prevOf_withNext, hu.prev]
  have hn : (withNext h p n n).isSome := by
    rw [isSome_withNext]
    exact hu.behind
  rw [destroyNode, bind_eq (getPrev_eq hu.prev), bind_eq (getNext_eq hu.next),
    bind_eq (setNext_eq hu.before), bind_eq (getNext_eq hnext), bind_eq (getPrev_eq hprev),
    setPrev_eq hn]

theorem insertTWLinkList_eq (hl : Linkable g p e n) :
    insertTWLinkList e p n g =
      some ((), withPrev (withPrev (withNext (withNext g p e) e n) e p) n e) := by
  rw [insertTWLinkList, bind_eq (setPrev_eq hl.behind), bind_eq (setNext_eq ?_),
    bind_eq (setNext_eq ?_), setPrev_eq ?_, withNext_withPrev, withNext_withPrev,
    withNext_comm hl.before_ne.symm, withPrev_comm hl.behind_ne]
  · simpa only [isSome_withNext, isSome_withPrev] using hl.cell
  · simpa only [isSome_withNext, isSome_withPrev] using hl.before
  · simpa only [isSome_withPrev] using hl.cell

end TWLinkList

open TWLinkList

namespace INSTWLinkList

/-- `new TWLinkList()`. -/
def newTWLinkList : Cell α where
  next := nullptr
  prev := nullptr
  data := none

/-- `new INSTWNode(value)`. -/
def newINSTWNode (ofInt : Int32 → α) (value : Int32) : Cell α where
  next := nullptr
  prev := nullptr
  data := some (ofInt value)

/-- `INSTWLinkList()`. -/
def construct (head : Addr) : Prog α Unit := do
  new head newTWLinkList
  initializeNode head

/-- A round of the loop of the destructor. -/
def destroyBody (head iter : Addr) : Prog α (Addr ⊕ Unit) := do
  if head ≠ iter then
    let node := iter
    destroyNode iter
    let iter ← getNext iter
    delete node
    return .inl iter
  return .inr ()

/-- `~INSTWLinkList()`. -/
def destroy (head : Addr) (fuel : ℕ) : Prog α Unit := do
  let iter ← getNext head
  loop (destroyBody head) fuel iter
  delete head

section Push

variable (ofInt : Int32 → α) (head node : Addr) (value : Int32)

/-- `PushBack(value)`, with the node that is allocated. -/
def pushBack : Prog α Unit := do
  new node (newINSTWNode ofInt value)
  insertBack head node

/-- `PushFront(value)`, with the node that is allocated. -/
def pushFront : Prog α Unit := do
  new node (newINSTWNode ofInt value)
  insertFront head node

end Push

/-- `Empty()`. -/
def empty (head : Addr) : Prog α Bool := do
  return head == (← getNext head)

/-- A round of the loop of `Size`. -/
def sizeBody (head : Addr) : Addr × UInt32 → Prog α ((Addr × UInt32) ⊕ UInt32)
  | (iter, size) => do
    if iter ≠ head then
      let iter ← getNext iter
      return .inl (iter, size + 1)
    return .inr size

/-- `Size()`. -/
def size (head : Addr) (fuel : ℕ) : Prog α UInt32 := do
  let iter ← getNext head
  loop (sizeBody head) fuel (iter, 0)

/-- A round of the loop of `Remove(value)`, with the `==` of the type. -/
def removeBody (eq : α → α → Bool) (head : Addr) (value : α) (iter : Addr) :
    Prog α (Addr ⊕ Unit) := do
  if head ≠ iter then
    let node := iter
    if eq (← getData node) value then
      destroyNode iter
      delete node
      return .inr ()
    let iter ← getNext iter
    return .inl iter
  return .inr ()

/-- `Remove(value)`. -/
def remove (eq : α → α → Bool) (head : Addr) (value : α) (fuel : ℕ) : Prog α Unit := do
  let iter ← getNext head
  loop (removeBody eq head value) fuel iter

/-- A round of the loop of `Remove(pr)`. -/
def removeIfBody (head : Addr) (pr : α → Bool) (iter : Addr) : Prog α (Addr ⊕ Unit) := do
  if head ≠ iter then
    let node := iter
    if pr (← getData node) then
      destroyNode iter
      let iter ← getNext iter
      delete node
      return .inl iter
    else
      let iter ← getNext iter
      return .inl iter
  return .inr ()

/-- `Remove(pr)`. -/
def removeIf (head : Addr) (pr : α → Bool) (fuel : ℕ) : Prog α Unit := do
  let iter ← getNext head
  loop (removeIfBody head pr) fuel iter

/-- A round of the loop of `Ergodic`, with what has been visited. -/
def ergodicBody (head : Addr) : Addr × List α → Prog α ((Addr × List α) ⊕ List α)
  | (iter, visited) => do
    if head ≠ iter then
      let data ← getData iter
      let iter ← getNext iter
      return .inl (iter, visited ++ [data])
    return .inr visited

/-- `Ergodic`, with what is visited, in this order. -/
def ergodic (head : Addr) (fuel : ℕ) : Prog α (List α) := do
  let iter ← getNext head
  loop (ergodicBody head) fuel (iter, [])

/-! ### The calls on a ring -/

variable {h₀ h : Heap α} {head node e : Addr} {v : α} {cells l r : List (Addr × α)}

section Push

variable {ofInt : Int32 → α}

theorem pushBack_stores (hs : Stores h₀ h head cells) (hnode : h node = none) (value : Int32) :
    ∃ h', pushBack ofInt head node value h = some ((), h') ∧
      Stores h₀ h' head (cells ++ [(node, ofInt value)]) := by
  have hfresh : Fresh h _ node (ofInt value) := .withCell (c := newINSTWNode ofInt value) hnode rfl
  rw [← List.append_nil cells] at hs
  have hl : Linkable _ _ node head := hs.linkable hfresh
  refine ⟨_, ?_, hs.insert hnode (hl.linkedIn hfresh)⟩
  rw [pushBack, bind_eq (new_eq hnode), insertBack, bind_eq (getPrev_eq hl.prev),
    insertTWLinkList_eq hl]

theorem pushFront_stores (hs : Stores h₀ h head cells) (hnode : h node = none) (value : Int32) :
    ∃ h', pushFront ofInt head node value h = some ((), h') ∧
      Stores h₀ h' head ((node, ofInt value) :: cells) := by
  have hfresh : Fresh h _ node (ofInt value) := .withCell (c := newINSTWNode ofInt value) hnode rfl
  have hl : Linkable _ head node _ := hs.linkable (l := []) hfresh
  refine ⟨_, ?_, hs.insert (l := []) hnode (hl.linkedIn hfresh)⟩
  rw [pushFront, bind_eq (new_eq hnode), insertFront, bind_eq (getNext_eq hl.next),
    insertTWLinkList_eq hl]

end Push

theorem empty_stores (hs : Stores h₀ h head cells) : empty head h = some (cells.isEmpty, h) := by
  rw [empty, bind_eq (getNext_eq hs.ring.nextOf_head)]
  refine congrArg (fun b => some (b, h)) ?_
  rcases cells with _ | ⟨⟨e, v⟩, cells⟩
  · exact beq_self_eq_true head
  · exact beq_false_of_ne (hs.ne_head (l := [])).symm

/-- The node a traversal is at, with the nodes from there on. -/
abbrev cursor (head : Addr) (r : List (Addr × α)) : Addr := (r.map Prod.fst).headD head

/-- A node, before a traversal goes on. -/
theorem getNext_cursor (hs : Stores h₀ h head (l ++ (e, v) :: r)) :
    getNext e h = some (cursor head r, h) :=
  getNext_eq hs.unlinkable.next

/-- `Size` counts the nodes from its place on. -/
theorem size_ends (hs : Stores h₀ h head (l ++ r)) (n : UInt32) :
    Ends (fun fuel => loop (sizeBody head) fuel (cursor head r, n)) h
      (n + UInt32.ofNat r.length) h := by
  induction r generalizing l n with
  | nil =>
    refine .done ?_
    have hcount : n + UInt32.ofNat ([] : List (Addr × α)).length = n := UInt32.add_zero n
    rw [hcount, sizeBody]
    exact congrFun (if_neg (not_not.2 rfl)) h
  | cons b r ih =>
    obtain ⟨e, v⟩ := b
    have hbody : sizeBody head (e, n) h = some (.inl (cursor head r, n + 1), h) := by
      rw [sizeBody, if_pos hs.ne_head, bind_eq (getNext_cursor hs)]
      rfl
    rw [List.append_cons] at hs
    have hcount : n + UInt32.ofNat (r.length + 1) = n + 1 + UInt32.ofNat r.length := by
      rw [UInt32.ofNat_add]
      ac_rfl
    rw [List.length_cons, hcount]
    exact .next hbody (ih hs (n + 1))

/-- `Ergodic` visits the nodes from its place on. -/
theorem ergodic_ends (hs : Stores h₀ h head (l ++ r)) (visited : List α) :
    Ends (fun fuel => loop (ergodicBody head) fuel (cursor head r, visited)) h
      (visited ++ r.map Prod.snd) h := by
  induction r generalizing l visited with
  | nil =>
    refine .done ?_
    rw [List.map_nil, List.append_nil, ergodicBody]
    exact congrFun (if_neg (not_not.2 rfl)) h
  | cons b r ih =>
    obtain ⟨e, v⟩ := b
    have hbody : ergodicBody head (e, visited) h =
        some (.inl (cursor head r, visited ++ [v]), h) := by
      rw [ergodicBody, if_pos hs.ne_head.symm, bind_eq (getData_eq hs.unlinkable.data),
        bind_eq (getNext_cursor hs)]
      rfl
    rw [List.append_cons] at hs
    rw [List.map_cons, List.append_cons]
    exact .next hbody (ih hs (visited ++ [v]))

/-- `Remove(value)` takes out the first equal node from its place on. -/
theorem remove_ends {eq : α → α → Bool} {value : α} (hs : Stores h₀ h head (l ++ r)) :
    ∃ h', Ends (fun fuel => loop (removeBody eq head value) fuel (cursor head r)) h () h' ∧
      Stores h₀ h' head (l ++ r.eraseP fun c => eq c.2 value) := by
  induction r generalizing l with
  | nil =>
    refine ⟨h, .done ?_, hs⟩
    rw [removeBody]
    exact congrFun (if_neg (not_not.2 rfl)) h
  | cons b r ih =>
    obtain ⟨e, v⟩ := b
    have hu := hs.unlinkable
    by_cases heq : eq v value
    · rw [List.eraseP_cons_of_pos (a := (e, v)) (p := fun c => eq c.2 value) heq]
      refine ⟨_, .done ?_, hs.remove hu.linkedOut⟩
      change removeBody eq head value e h = _
      rw [removeBody, if_pos hs.ne_head.symm, bind_eq (getData_eq hu.data), if_pos heq,
        bind_eq (destroyNode_eq hu), bind_eq (delete_eq ?_)]
      · rfl
      · simpa only [isSome_withNext, isSome_withPrev] using hu.cell
    · rw [List.eraseP_cons_of_neg (a := (e, v)) (p := fun c => eq c.2 value) heq]
      have hbody : removeBody eq head value e h = some (.inl (cursor head r), h) := by
        rw [removeBody, if_pos hs.ne_head.symm, bind_eq (getData_eq hu.data), if_neg heq,
          bind_eq (getNext_cursor hs)]
        rfl
      rw [List.append_cons] at hs ⊢
      obtain ⟨h', hends, hs'⟩ := ih hs
      exact ⟨h', .next hbody hends, hs'⟩

/-- `Remove(pr)` takes out all matching nodes from its place on. The next link is read of a node
that has been linked out already, but not freed. -/
theorem removeIf_ends {pr : α → Bool} (hs : Stores h₀ h head (l ++ r)) :
    ∃ h', Ends (fun fuel => loop (removeIfBody head pr) fuel (cursor head r)) h () h' ∧
      Stores h₀ h' head (l ++ r.filter fun c => !pr c.2) := by
  induction r generalizing h l with
  | nil =>
    refine ⟨h, .done ?_, hs⟩
    rw [removeIfBody]
    exact congrFun (if_neg (not_not.2 rfl)) h
  | cons b r ih =>
    obtain ⟨e, v⟩ := b
    have hu := hs.unlinkable
    by_cases hpr : pr v
    · rw [List.filter_cons_of_neg (by simp [hpr])]
      obtain ⟨h', hends, hs'⟩ := ih (hs.remove hu.linkedOut)
      refine ⟨h', .next ?_ hends, hs'⟩
      change removeIfBody head pr e h = _
      rw [removeIfBody, if_pos hs.ne_head.symm, bind_eq (getData_eq hu.data), if_pos hpr,
        bind_eq (destroyNode_eq hu), bind_eq (getNext_eq ?_), bind_eq (delete_eq ?_)]
      · rfl
      · simpa only [isSome_withNext, isSome_withPrev] using hu.cell
      · rw [nextOf_withPrev, nextOf_withNext hu.before, if_neg hu.before_ne.symm, hu.next]
    · rw [List.filter_cons_of_pos (by simp [hpr])]
      have hbody : removeIfBody head pr e h = some (.inl (cursor head r), h) := by
        rw [removeIfBody, if_pos hs.ne_head.symm, bind_eq (getData_eq hu.data), if_neg hpr,
          bind_eq (getNext_cursor hs)]
        rfl
      rw [List.append_cons] at hs ⊢
      obtain ⟨h', hends, hs'⟩ := ih hs
      exact ⟨h', .next hbody hends, hs'⟩

/-! ### The traversals, from the head on -/

section Traversals

variable {h' : Heap α}

/-- A traversal starts behind the head, -/
theorem ends_iff {β : Type} {q : ℕ → Addr → Prog α β} {r : β} (hs : Stores h₀ h head cells) :
    Ends (fun fuel => getNext head >>= q fuel) h r h' ↔
      Ends (fun fuel => q fuel (cursor head cells)) h r h' :=
  ends_bind (getNext_eq hs.ring.nextOf_head)

/-- and it ends in one way. -/
theorem ends_unique {β σ : Type} {body : σ → Prog α (σ ⊕ β)} {init : Addr → σ} {r r' : β}
    {h'' : Heap α} (hs : Stores h₀ h head cells)
    (hends : Ends (fun fuel => getNext head >>= fun iter => loop body fuel (init iter)) h r h')
    (hends' : Ends (fun fuel => getNext head >>= fun iter => loop body fuel (init iter)) h r' h'') :
    r = r' ∧ h' = h'' :=
  ((ends_iff hs).1 hends).unique ((ends_iff hs).1 hends')

theorem size_stores (hs : Stores h₀ h head cells) :
    Ends (size head) h (UInt32.ofNat cells.length) h := by
  refine (ends_iff hs).2 ?_
  rw [← UInt32.zero_add (UInt32.ofNat cells.length)]
  exact size_ends (l := []) hs 0

theorem ergodic_stores (hs : Stores h₀ h head cells) :
    Ends (ergodic head) h (cells.map Prod.snd) h :=
  (ends_iff hs).2 (ergodic_ends (l := []) hs [])

theorem remove_stores (eq : α → α → Bool) (value : α) (hs : Stores h₀ h head cells) :
    ∃ h', Ends (remove eq head value) h () h' ∧
      Stores h₀ h' head (cells.eraseP fun c => eq c.2 value) := by
  obtain ⟨h', hends, hs'⟩ := remove_ends (l := []) hs
  exact ⟨h', (ends_iff hs).2 hends, hs'⟩

theorem removeIf_stores (pr : α → Bool) (hs : Stores h₀ h head cells) :
    ∃ h', Ends (removeIf head pr) h () h' ∧ Stores h₀ h' head (cells.filter fun c => !pr c.2) := by
  obtain ⟨h', hends, hs'⟩ := removeIf_ends (l := []) hs
  exact ⟨h', (ends_iff hs).2 hends, hs'⟩

end Traversals

/-- The loop of the destructor takes out all nodes. -/
theorem destroy_ends (hs : Stores h₀ h head r) :
    ∃ h', Ends (fun fuel => loop (destroyBody head) fuel (cursor head r)) h () h' ∧
      Stores h₀ h' head [] := by
  induction r generalizing h with
  | nil =>
    refine ⟨h, .done ?_, hs⟩
    rw [destroyBody]
    exact congrFun (if_neg (not_not.2 rfl)) h
  | cons b r ih =>
    obtain ⟨e, v⟩ := b
    have hu := hs.unlinkable (l := [])
    obtain ⟨h', hends, hs'⟩ := ih (hs.remove (l := []) hu.linkedOut)
    refine ⟨h', .next ?_ hends, hs'⟩
    change destroyBody head e h = _
    rw [destroyBody, if_pos (hs.ne_head (l := [])).symm, bind_eq (destroyNode_eq hu),
      bind_eq (getNext_eq ?_), bind_eq (delete_eq ?_)]
    · rfl
    · simpa only [isSome_withNext, isSome_withPrev] using hu.cell
    · rw [nextOf_withPrev, nextOf_withNext hu.before, if_neg hu.before_ne.symm, hu.next]

theorem destroy_stores (hs : Stores h₀ h head cells) : Ends (destroy head) h () h₀ := by
  obtain ⟨h', ⟨fuel, hends⟩, hs'⟩ := destroy_ends hs
  refine ⟨fuel, ?_⟩
  rw [destroy, bind_eq (getNext_eq hs.ring.nextOf_head), bind_eq hends]
  exact hs'.delete_head

/-! ### Runs -/

/-- A call, with the node it allocates or with its answer. -/
inductive Call (α : Type)
  | pushBack (node : Addr) (value : Int32)
  | pushFront (node : Addr) (value : Int32)
  | remove (value : α)
  | removeIf (pr : α → Bool)
  | size (answer : UInt32)
  | empty (answer : Bool)
  | ergodic (visited : List α)

/-- **What a list should do**, on its elements from front to back. The length is counted modulo
`2 ^ 32`. -/
inductive Listed (ofInt : Int32 → α) (eq : α → α → Bool) : List α → Call α → List α → Prop
  | pushBack (vs : List α) (node : Addr) (value : Int32) :
      Listed ofInt eq vs (.pushBack node value) (vs ++ [ofInt value])
  | pushFront (vs : List α) (node : Addr) (value : Int32) :
      Listed ofInt eq vs (.pushFront node value) (ofInt value :: vs)
  | remove (vs : List α) (value : α) :
      Listed ofInt eq vs (.remove value) (vs.eraseP fun v => eq v value)
  | removeIf (vs : List α) (pr : α → Bool) :
      Listed ofInt eq vs (.removeIf pr) (vs.filter fun v => !pr v)
  | size {vs : List α} {answer : UInt32} (hanswer : answer.toNat = vs.length % 2 ^ 32) :
      Listed ofInt eq vs (.size answer) vs
  | empty (vs : List α) : Listed ofInt eq vs (.empty vs.isEmpty) vs
  | ergodic (vs : List α) : Listed ofInt eq vs (.ergodic vs) vs

section Runs

variable (ofInt : Int32 → α) (eq : α → α → Bool) (head : Addr)

/-- A call on the heap. -/
inductive Step : Heap α → Call α → Heap α → Prop
  /-- The node is one that was free. -/
  | pushBack {h h' : Heap α} {node : Addr} {value : Int32} (hnode : h node = none)
      (hpush : pushBack ofInt head node value h = some ((), h')) :
      Step h (.pushBack node value) h'
  | pushFront {h h' : Heap α} {node : Addr} {value : Int32} (hnode : h node = none)
      (hpush : pushFront ofInt head node value h = some ((), h')) :
      Step h (.pushFront node value) h'
  | remove {h h' : Heap α} {value : α} (hends : Ends (remove eq head value) h () h') :
      Step h (.remove value) h'
  | removeIf {h h' : Heap α} {pr : α → Bool} (hends : Ends (removeIf head pr) h () h') :
      Step h (.removeIf pr) h'
  | size {h h' : Heap α} {answer : UInt32} (hends : Ends (size head) h answer h') :
      Step h (.size answer) h'
  | empty {h h' : Heap α} {answer : Bool} (hempty : empty head h = some (answer, h')) :
      Step h (.empty answer) h'
  | ergodic {h h' : Heap α} {visited : List α} (hends : Ends (ergodic head) h visited h') :
      Step h (.ergodic visited) h'

/-- Every call returns: none of them reads, writes or frees what is not allocated, and no
traversal goes on for ever. -/
structure Returns (h : Heap α) : Prop where
  pushBack : ∀ node value, h node = none →
    ∃ h', INSTWLinkList.pushBack ofInt head node value h = some ((), h')
  pushFront : ∀ node value, h node = none →
    ∃ h', INSTWLinkList.pushFront ofInt head node value h = some ((), h')
  remove : ∀ value, ∃ h', Ends (INSTWLinkList.remove eq head value) h () h'
  removeIf : ∀ pr, ∃ h', Ends (INSTWLinkList.removeIf head pr) h () h'
  size : ∃ answer h', Ends (INSTWLinkList.size head) h answer h'
  empty : ∃ answer h', INSTWLinkList.empty head h = some (answer, h')
  ergodic : ∃ visited h', Ends (INSTWLinkList.ergodic head) h visited h'

/-- **The list behaves.** Constructed on any heap, it may be called in any order. The calls return
and do what they should; the ring is well formed and holds what should be in the list; and the
destructor ends, with the heap as it was before there was a list. -/
def Behaves : Prop :=
  ∀ (h₀ : Heap α) (head : Addr), h₀ head = none →
    ∃ h, construct head h₀ = some ((), h) ∧
      ∀ calls h', Run (Step ofInt eq head) h calls h' →
        Formed h' head ∧ Returns ofInt eq head h' ∧
          (∃ cells, Stores h₀ h' head cells ∧
            Run (Listed ofInt eq) [] calls (cells.map Prod.snd)) ∧
          Ends (destroy head) h' () h₀

end Runs

section Behaves

variable {ofInt : Int32 → α} {eq : α → α → Bool} {h' : Heap α} {call : Call α}

theorem returns (hs : Stores h₀ h head cells) : Returns ofInt eq head h := by
  refine ⟨fun node value hnode => ?_, fun node value hnode => ?_, fun value => ?_, fun pr => ?_,
    ⟨_, h, size_stores hs⟩, ⟨_, h, empty_stores hs⟩, ⟨_, h, ergodic_stores hs⟩⟩
  · obtain ⟨h', hpush, -⟩ := pushBack_stores hs hnode value
    exact ⟨h', hpush⟩
  · obtain ⟨h', hpush, -⟩ := pushFront_stores hs hnode value
    exact ⟨h', hpush⟩
  · obtain ⟨h', hends, -⟩ := remove_stores eq value hs
    exact ⟨h', hends⟩
  · obtain ⟨h', hends, -⟩ := removeIf_stores pr hs
    exact ⟨h', hends⟩

/-- **A call does what it should**, and leaves a ring of what is in the list then. -/
theorem step_listed (hs : Stores h₀ h head cells) (hstep : Step ofInt eq head h call h') :
    ∃ cells', Listed ofInt eq (cells.map Prod.snd) call (cells'.map Prod.snd) ∧
      Stores h₀ h' head cells' := by
  cases hstep with
  | @pushBack _ node value hnode hpush =>
    obtain ⟨h₁, hpush', hs'⟩ := pushBack_stores hs hnode value
    obtain ⟨-, rfl⟩ := result_unique hpush hpush'
    refine ⟨_, ?_, hs'⟩
    rw [List.map_append]
    exact .pushBack _ node value
  | @pushFront _ node value hnode hpush =>
    obtain ⟨h₁, hpush', hs'⟩ := pushFront_stores hs hnode value
    obtain ⟨-, rfl⟩ := result_unique hpush hpush'
    exact ⟨_, .pushFront _ node value, hs'⟩
  | @remove _ value hends =>
    obtain ⟨h₁, hends', hs'⟩ := remove_stores eq value hs
    obtain ⟨-, rfl⟩ := ends_unique hs hends hends'
    have hmap : (cells.map Prod.snd).eraseP (fun v => eq v value) =
        (cells.eraseP fun c => eq c.2 value).map Prod.snd := List.eraseP_map ..
    exact ⟨_, hmap ▸ .remove _ value, hs'⟩
  | @removeIf _ pr hends =>
    obtain ⟨h₁, hends', hs'⟩ := removeIf_stores pr hs
    obtain ⟨-, rfl⟩ := ends_unique hs hends hends'
    have hmap : (cells.map Prod.snd).filter (fun v => !pr v) =
        (cells.filter fun c => !pr c.2).map Prod.snd := List.filter_map ..
    exact ⟨_, hmap ▸ .removeIf _ pr, hs'⟩
  | size hends =>
    obtain ⟨rfl, rfl⟩ := ends_unique hs hends (size_stores hs)
    exact ⟨cells, .size (by rw [UInt32.toNat_ofNat', List.length_map]), hs⟩
  | empty hempty =>
    obtain ⟨rfl, rfl⟩ := result_unique hempty (empty_stores hs)
    refine ⟨cells, ?_, hs⟩
    rw [← List.isEmpty_map (f := Prod.snd)]
    exact .empty _
  | ergodic hends =>
    obtain ⟨rfl, rfl⟩ := ends_unique hs hends (ergodic_stores hs)
    exact ⟨cells, .ergodic _, hs⟩

/-- **A run does what it should.** -/
theorem run_listed {calls : List (Call α)} (hs : Stores h₀ h head cells)
    (hrun : Run (Step ofInt eq head) h calls h') :
    ∃ cells', Run (Listed ofInt eq) (cells.map Prod.snd) calls (cells'.map Prod.snd) ∧
      Stores h₀ h' head cells' := by
  obtain ⟨_, hlisted, cells', hs', rfl⟩ := hrun.refine
    (R := fun h vs => ∃ cells, Stores h₀ h head cells ∧ cells.map Prod.snd = vs)
    (fun ⟨cells, hs, hcells⟩ hstep => by
      obtain ⟨cells', hstep', hs'⟩ := step_listed hs hstep
      exact ⟨_, hcells ▸ hstep', cells', hs', rfl⟩) ⟨cells, hs, rfl⟩
  exact ⟨cells', hlisted, hs'⟩

theorem construct_stores (hhead : h₀ head = none) :
    ∃ h, construct head h₀ = some ((), h) ∧ Stores h₀ h head [] :=
  Stores.of_construct hhead newTWLinkList

/-- **The list is the list it should be**, for every type of elements with any comparison, after
every run, and nothing is read, written or freed that is not allocated. -/
theorem behaves (ofInt : Int32 → α) (eq : α → α → Bool) : Behaves ofInt eq := by
  intro h₀ head hhead
  obtain ⟨h, hconstruct, hinit⟩ := construct_stores hhead
  refine ⟨h, hconstruct, fun calls h' hrun => ?_⟩
  obtain ⟨cells, hlisted, hs⟩ := run_listed hinit hrun
  exact ⟨hs.ring.formed, returns hs, ⟨cells, hs, hlisted⟩, destroy_stores hs⟩

/-- On a heap with nothing else on it any number of elements can be pushed. -/
theorem exists_run_pushBack (hs : Stores (fun _ => none) h head cells) (value : Int32) :
    ∀ n, ∃ calls h' cells', Run (Step ofInt eq head) h calls h' ∧
      Run (Listed ofInt eq) (cells.map Prod.snd) calls (cells'.map Prod.snd) ∧
        Stores (fun _ => none) h' head cells' ∧ cells'.length = cells.length + n
  | 0 => ⟨[], h, cells, .nil h, .nil _, hs, rfl⟩
  | n + 1 => by
    obtain ⟨calls, h₁, cells₁, hrun, hlisted, hs₁, hlen⟩ := exists_run_pushBack hs value n
    obtain ⟨node, hnode⟩ := Infinite.exists_notMem_finset (head :: cells₁.map Prod.fst).toFinset
    rw [List.mem_toFinset] at hnode
    have hfree : h₁ node = none := hs₁.frame node hnode
    obtain ⟨h', hpush, hs'⟩ := pushBack_stores hs₁ hfree value
    refine ⟨_, h', _, hrun.snoc (.pushBack hfree hpush), ?_, hs', ?_⟩
    · rw [List.map_append]
      exact hlisted.snoc (.pushBack _ node value)
    · rw [List.length_append, hlen, List.length_singleton, Nat.add_assoc]

/-- **The length wraps around**: there is a run to a list of `2 ^ 32` elements, of which `Size`
says there is none. -/
theorem size_wraps : ∃ (h h' : Heap Int32) (calls : List (Call Int32)) (held : List Int32),
    construct 1 (fun _ => none) = some ((), h) ∧ Run (Step id (· == ·) 1) h calls h' ∧
      Run (Listed id (· == ·)) [] calls held ∧ held.length = 2 ^ 32 ∧ Ends (size 1) h' 0 h' := by
  obtain ⟨h, hconstruct, hinit⟩ : ∃ h, construct 1 (fun _ => none) = some ((), h) ∧
      Stores (fun _ => none) h 1 ([] : List (Addr × Int32)) := construct_stores rfl
  obtain ⟨calls, h', cells, hrun, hlisted, hs, hlen⟩ :=
    exists_run_pushBack hinit 0 (2 ^ 32)
  rw [List.length_nil, Nat.zero_add] at hlen
  refine ⟨h, h', calls, _, hconstruct, hrun, hlisted, ?_, ?_⟩
  · rw [List.length_map, hlen]
  · have hsize := size_stores hs
    rwa [hlen] at hsize

end Behaves

end INSTWLinkList

end MToolkit

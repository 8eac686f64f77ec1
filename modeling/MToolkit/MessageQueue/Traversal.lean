import MToolkit.Library.Sequences
import MToolkit.MessageQueue.Builder

/-!
# Editing the list of handlers while it is run

The elements that the loop has called lie behind its iterator, and those that it will call at
the iterator and ahead (`ForEach.Inv`). Registering makes the part ahead longer, and erasing
takes elements from either part; the loop goes on from wherever it is, as long as the element
of the iterator itself is still there (`ForEach.run_iff`).
-/

namespace MToolkit

/-! ### The element behind another -/

namespace ForEach

section Next

variable {η : Type} {nodes : List (HandlerNode η)} {node : HandlerNode η}

/-- An element of the list, with what is before it and behind it. -/
theorem exists_split (h : nodes.Pairwise fun node node' => node.id < node'.id)
    (hnode : node ∈ nodes) :
    ∃ before behind, nodes = before ++ node :: behind ∧ (∀ n ∈ before, n.id < node.id) ∧
      (∀ n ∈ behind, node.id < n.id) ∧ behind.Pairwise (fun node node' => node.id < node'.id) ∧
      next nodes node.id = behind.head?.map HandlerNode.id := by
  obtain ⟨before, behind, rfl⟩ := List.append_of_mem hnode
  obtain ⟨-, hcons, hlt⟩ := List.pairwise_append.mp h
  obtain ⟨hgt, hbehind⟩ := List.pairwise_cons.mp hcons
  have hbefore : ∀ n ∈ before, n.id < node.id := fun n hn => hlt n hn node List.mem_cons_self
  refine ⟨before, behind, rfl, hbefore, hgt, hbehind, ?_⟩
  have hdrop : (before ++ node :: behind).dropWhile (fun n => n.id != node.id) =
      node :: behind := by
    rw [List.dropWhile_append_of_pos, List.dropWhile_cons_of_neg (by simp)]
    intro n hn
    exact bne_iff_ne.mpr (hbefore n hn).ne
  rw [next, hdrop, List.tail_cons]

/-- An element is known by its identity. -/
theorem eq_of_id (h : nodes.Pairwise fun node node' => node.id < node'.id) {n : HandlerNode η}
    (hn : n ∈ nodes) (hnode : node ∈ nodes) (hid : n.id = node.id) : n = node := by
  obtain ⟨before, behind, rfl, hbefore, hbehind, -⟩ := exists_split h hnode
  rcases List.mem_append.mp hn with hn | hn
  · exact absurd hid (hbefore n hn).ne
  rcases List.mem_cons.mp hn with rfl | hn
  · rfl
  · exact absurd hid (hbehind n hn).ne'

theorem find?_id (h : nodes.Pairwise fun node node' => node.id < node'.id)
    (hnode : node ∈ nodes) : nodes.find? (fun n => n.id == node.id) = some node := by
  have hsome : (nodes.find? fun n => n.id == node.id).isSome :=
    List.find?_isSome.mpr ⟨node, hnode, beq_self_eq_true _⟩
  obtain ⟨found, hfound⟩ := Option.isSome_iff_exists.mp hsome
  have hid : found.id = node.id := by simpa using List.find?_some hfound
  rw [hfound, eq_of_id h (List.mem_of_find?_eq_some hfound) hnode hid]

/-- Behind the last element there is none. -/
theorem le_of_next_eq_none (h : nodes.Pairwise fun node node' => node.id < node'.id)
    (hnode : node ∈ nodes) (hnext : next nodes node.id = none) :
    ∀ n ∈ nodes, n.id ≤ node.id := by
  obtain ⟨before, behind, rfl, hbefore, -, -, heq⟩ := exists_split h hnode
  rw [heq, Option.map_eq_none_iff, List.head?_eq_none_iff] at hnext
  intro n hn
  rw [hnext, List.mem_append, List.mem_singleton] at hn
  rcases hn with hn | rfl
  · exact (hbefore n hn).le
  · exact le_rfl

/-- The element behind is the first of those with a greater identity. -/
theorem next_eq_some (h : nodes.Pairwise fun node node' => node.id < node'.id)
    (hnode : node ∈ nodes) {id : ℕ} (hnext : next nodes node.id = some id) :
    (∃ n ∈ nodes, n.id = id) ∧ node.id < id ∧ ∀ n ∈ nodes, n.id < id → n.id ≤ node.id := by
  obtain ⟨before, behind, rfl, hbefore, hgt, hpair, heq⟩ := exists_split h hnode
  rw [heq] at hnext
  cases behind with
  | nil => exact absurd hnext (Option.some_ne_none id).symm
  | cons m behind =>
    obtain rfl : m.id = id := Option.some.inj hnext
    refine ⟨⟨m, by simp, rfl⟩, hgt m List.mem_cons_self, ?_⟩
    intro n hn hlt
    rcases List.mem_append.mp hn with hn | hn
    · exact (hbefore n hn).le
    rcases List.mem_cons.mp hn with rfl | hn
    · exact le_rfl
    rcases List.mem_cons.mp hn with rfl | hn
    · exact absurd hlt (lt_irrefl _)
    · exact absurd hlt (List.rel_of_pairwise_cons hpair hn).not_gt

end Next

/-! ### The invariant of the loop -/

section Loop

variable {η : Type} {s u : ForEach η} {edits : List (Edit η)}

/-- The identity that the loop has come to. -/
def bound (s : ForEach η) : ℕ := s.iter.getD s.builder.fresh

/-- **What the loop has called** is what is behind its iterator. -/
structure Inv (s : ForEach η) : Prop where
  sorted : s.builder.Sorted
  /-- The iterator points to an element. -/
  points : ∀ id, s.iter = some id → ∃ node ∈ s.builder.nodes, node.id = id
  /-- Everything behind it has been called. -/
  called : ∀ node ∈ s.builder.nodes, node.id < s.bound → node ∈ s.called
  /-- Nothing else has been called. -/
  lt_bound : ∀ node ∈ s.called, node.id < s.bound
  /-- Nothing has been called twice. -/
  nodup : s.called.Nodup

theorem bound_of_some {id : ℕ} (h : s.iter = some id) : s.bound = id := by
  rw [bound, h, Option.getD_some]

theorem bound_of_none (h : s.iter = none) : s.bound = s.builder.fresh := by
  rw [bound, h, Option.getD_none]

/-- Before the first callback. -/
theorem inv_start {b : Builder η} (h : b.Sorted) : (start b).Inv := by
  refine ⟨h, ?_, ?_, List.forall_mem_nil _, .nil⟩
  · intro id hid
    obtain ⟨node, hnode, rfl⟩ := Option.map_eq_some_iff.mp hid
    exact ⟨node, List.mem_of_mem_head? hnode, rfl⟩
  · intro node hnode hlt
    obtain ⟨b, fresh⟩ := b
    cases b with
    | nil => exact absurd hnode List.not_mem_nil
    | cons first nodes =>
      have hle : first.id ≤ node.id := by
        rcases List.mem_cons.mp hnode with rfl | hnode
        · exact le_rfl
        · exact (List.rel_of_pairwise_cons h.pairwise hnode).le
      exact absurd hlt hle.not_gt

/-- The elements that the loop will call. -/
def ahead (s : ForEach η) : ℕ := s.builder.nodes.countP fun node => s.bound ≤ node.id

variable [DecidableEq η]

/-- An element that is there is found, and is there afterwards if it is not erased. -/
theorem turn_of_spares (h : s.Inv) {node : HandlerNode η} (hnode : node ∈ s.builder.nodes)
    (hiter : s.iter = some node.id)
    (hspares : ∀ e ∈ edits, ¬Builder.Erases node.handler e) :
    s.turn edits =
      some
        { builder := edits.foldl Builder.edit s.builder
          iter := next (edits.foldl Builder.edit s.builder).nodes node.id
          called := s.called ++ [node] } := by
  have hmem : node ∈ (edits.foldl Builder.edit s.builder).nodes :=
    (Builder.mem_foldl edits (h.sorted.lt_fresh node hnode)).mpr ⟨hnode, hspares⟩
  have hany : (edits.foldl Builder.edit s.builder).nodes.any (fun n => n.id == node.id) = true :=
    List.any_eq_true.mpr ⟨node, hmem, beq_self_eq_true _⟩
  rw [turn, hiter]
  dsimp only
  rw [find?_id h.sorted.pairwise hnode, Option.bind_eq_bind, Option.bind_some, if_pos hany]

/-- **An iterator whose element has been erased** cannot be advanced. -/
theorem turn_of_erases (h : s.Inv) {node : HandlerNode η} (hnode : node ∈ s.builder.nodes)
    (hiter : s.iter = some node.id)
    (herases : ¬∀ e ∈ edits, ¬Builder.Erases node.handler e) : s.turn edits = none := by
  have hany :
      ¬(edits.foldl Builder.edit s.builder).nodes.any (fun n => n.id == node.id) = true := by
    intro hany
    obtain ⟨n, hn, hid⟩ := List.any_eq_true.mp hany
    have hid : n.id = node.id := beq_iff_eq.mp hid
    have hlt := h.sorted.lt_fresh node hnode
    obtain ⟨hn, hspares⟩ := (Builder.mem_foldl edits (hid.trans_lt hlt)).mp hn
    obtain rfl := eq_of_id h.sorted.pairwise hn hnode hid
    exact herases hspares
  rw [turn, hiter]
  dsimp only
  rw [find?_id h.sorted.pairwise hnode, Option.bind_eq_bind, Option.bind_some, if_neg hany]

/-- After a turn that is not a fault. -/
theorem Inv.turn (h : s.Inv) (hturn : s.turn edits = some u) : u.Inv := by
  cases hiter : s.iter with
  | none =>
    rw [ForEach.turn, hiter] at hturn
    rwa [← Option.some.inj hturn]
  | some id =>
    obtain ⟨node, hnode, rfl⟩ := h.points id hiter
    have hlt := h.sorted.lt_fresh node hnode
    by_cases hspares : ∀ e ∈ edits, ¬Builder.Erases node.handler e
    swap
    · rw [turn_of_erases h hnode hiter hspares] at hturn
      exact absurd hturn (Option.some_ne_none u).symm
    have hmem := (Builder.mem_foldl edits hlt).mpr ⟨hnode, hspares⟩
    rw [turn_of_spares h hnode hiter hspares] at hturn
    obtain rfl := Option.some.inj hturn
    obtain ⟨hsorted, hle⟩ := Builder.sorted_foldl edits h.sorted
    have hbound := bound_of_some hiter
    -- nothing lies between the element that was called and the next
    have hnext : node.id < bound ⟨edits.foldl Builder.edit s.builder,
          next (edits.foldl Builder.edit s.builder).nodes node.id, s.called ++ [node]⟩ ∧
        ∀ n ∈ (edits.foldl Builder.edit s.builder).nodes,
          n.id < bound ⟨edits.foldl Builder.edit s.builder,
            next (edits.foldl Builder.edit s.builder).nodes node.id, s.called ++ [node]⟩ →
          n.id ≤ node.id := by
      cases hfollow : next (edits.foldl Builder.edit s.builder).nodes node.id with
      | none =>
        refine ⟨hlt.trans_le hle, fun n hn _ => ?_⟩
        exact le_of_next_eq_none hsorted.pairwise hmem hfollow n hn
      | some id => exact (next_eq_some hsorted.pairwise hmem hfollow).2
    refine ⟨hsorted, ?_, ?_, ?_, ?_⟩
    · intro id hid
      exact (next_eq_some hsorted.pairwise hmem hid).1
    · intro n hn hbelow
      have hnid := hnext.2 n hn hbelow
      have hold := ((Builder.mem_foldl edits (hnid.trans_lt hlt)).mp hn).1
      rcases hnid.lt_or_eq with hnid | hnid
      · exact List.mem_append_left _ (h.called n hold (by rwa [hbound]))
      · rw [eq_of_id h.sorted.pairwise hold hnode hnid]
        exact List.mem_append_right _ (List.mem_singleton_self node)
    · intro n hn
      rcases List.mem_append.mp hn with hn | hn
      · exact (hbound ▸ h.lt_bound n hn).trans hnext.1
      · rw [List.mem_singleton.mp hn]
        exact hnext.1
    · refine List.nodup_append.mpr ⟨h.nodup, List.nodup_singleton node, ?_⟩
      intro n hn m hm
      rw [List.mem_singleton.mp hm]
      rintro rfl
      exact absurd (h.lt_bound n hn) (by rw [hbound]; exact lt_irrefl _)

/-- Without a registration, a turn leaves less to be called. -/
theorem ahead_lt (h : s.Inv) {node : HandlerNode η} (hnode : node ∈ s.builder.nodes)
    (hiter : s.iter = some node.id) (hreg : ∀ handler, Edit.registerHandler handler ∉ edits)
    (hturn : s.turn edits = some u) : u.ahead < s.ahead := by
  have hinv := h.turn hturn
  have hsub : u.builder.nodes.Sublist s.builder.nodes ∧ node ∈ u.called := by
    by_cases hspares : ∀ e ∈ edits, ¬Builder.Erases node.handler e
    · rw [turn_of_spares h hnode hiter hspares] at hturn
      obtain rfl := Option.some.inj hturn
      exact ⟨Builder.sublist_foldl edits hreg, List.mem_append_right _ (List.mem_singleton_self _)⟩
    · rw [turn_of_erases h hnode hiter hspares] at hturn
      exact absurd hturn (Option.some_ne_none u).symm
  have hlt := hinv.lt_bound node hsub.2
  have hbound := bound_of_some hiter
  calc u.ahead
      ≤ s.builder.nodes.countP fun n => u.bound ≤ n.id := hsub.1.countP_le
    _ < s.ahead := by
        refine List.countP_lt_countP (fun n _ hn => ?_) hnode ?_ ?_
        · have hn : u.bound ≤ n.id := of_decide_eq_true hn
          exact decide_eq_true (by omega)
        · exact fun hn => absurd (of_decide_eq_true hn) (by omega)
        · exact decide_eq_true hbound.le

/-! ### The whole run -/

variable {callbacks : ℕ → List (Edit η)} {n m : ℕ}

theorem run_succ (h : run callbacks s n = some u) :
    run callbacks s (n + 1) = u.turn (callbacks n) := by
  rw [run, h, Option.bind_some]

theorem Inv.run (hs : s.Inv) (h : run callbacks s n = some u) : u.Inv := by
  induction n generalizing u with
  | zero =>
    obtain rfl := Option.some.inj h
    exact hs
  | succ n ih =>
    obtain ⟨w, hw, hturn⟩ := Option.bind_eq_some_iff.mp h
    exact (ih hw).turn hturn

/-- No callback erases the element whose handler is called. -/
def Clean (callbacks : ℕ → List (Edit η)) (s : ForEach η) : Prop :=
  ∀ n u, run callbacks s n = some u → ∀ node ∈ u.builder.nodes, u.iter = some node.id →
    ∀ e ∈ callbacks n, ¬Builder.Erases node.handler e

/-- A clean loop has no fault. -/
theorem Clean.isSome (hclean : Clean callbacks s) (hs : s.Inv) (n : ℕ) :
    ∃ u, run callbacks s n = some u := by
  induction n with
  | zero => exact ⟨s, rfl⟩
  | succ n ih =>
    obtain ⟨u, hu⟩ := ih
    rw [run_succ hu]
    cases hiter : u.iter with
    | none => exact ⟨u, by rw [turn, hiter]⟩
    | some id =>
      obtain ⟨node, hnode, rfl⟩ := (hs.run hu).points id hiter
      exact ⟨_, turn_of_spares (hs.run hu) hnode hiter (hclean n u hu node hnode hiter)⟩

/-- A clean loop ends, once there are no more registrations. -/
theorem Clean.exists_end (hclean : Clean callbacks s) (hs : s.Inv)
    (hreg : ∀ k ≥ n, ∀ handler, Edit.registerHandler handler ∉ callbacks k)
    (hu : run callbacks s n = some u) : ∃ k w, run callbacks s k = some w ∧ w.iter = none := by
  induction hahead : u.ahead using Nat.strong_induction_on generalizing n u with
  | h a ih =>
    cases hiter : u.iter with
    | none => exact ⟨n, u, hu, hiter⟩
    | some id =>
      obtain ⟨node, hnode, rfl⟩ := (hs.run hu).points id hiter
      obtain ⟨w, hw⟩ := hclean.isSome hs (n + 1)
      have hturn := (run_succ hu).symm.trans hw
      have hlt := ahead_lt (hs.run hu) hnode hiter (hreg n le_rfl) hturn
      exact ih w.ahead (hahead ▸ hlt) (fun k hk => hreg k (by omega)) hw rfl

/-- **What has been called at the end.** -/
theorem Inv.count_eq_one (h : s.Inv) (hend : s.iter = none) {node : HandlerNode η}
    (hnode : node ∈ s.builder.nodes) : s.called.count node = 1 := by
  refine List.count_eq_one_of_mem h.nodup (h.called node hnode ?_)
  rw [bound_of_none hend]
  exact h.sorted.lt_fresh node hnode

/-- **Handlers that edit the list while it is run**, with finitely many registrations: the loop
has no fault, ends, and has then called every element that is still there exactly once, just
when no callback erases the element it is called for. -/
theorem run_iff (before : List (Edit η)) (callbacks : ℕ → List (Edit η))
    (hreg : ∃ n, ∀ k ≥ n, ∀ handler, Edit.registerHandler handler ∉ callbacks k) :
    ((∀ n, run callbacks (start (Builder.after before)) n ≠ none) ∧
        ∃ n s, run callbacks (start (Builder.after before)) n = some s ∧ s.iter = none ∧
          ∀ node ∈ s.builder.nodes, s.called.count node = 1) ↔
      Clean callbacks (start (Builder.after before)) := by
  have hs : (start (Builder.after before)).Inv := inv_start (Builder.sorted_after before)
  constructor
  · rintro ⟨hfault, n, s, hn, hend, -⟩ m u hm node hnode hiter
    by_contra herases
    have hturn := turn_of_erases (hs.run hm) hnode hiter herases
    exact hfault (m + 1) ((run_succ hm).trans hturn)
  · intro hclean
    refine ⟨fun n hn => ?_, ?_⟩
    · obtain ⟨u, hu⟩ := hclean.isSome hs n
      exact absurd (hu.symm.trans hn) (Option.some_ne_none u)
    · obtain ⟨n, hreg⟩ := hreg
      obtain ⟨u, hu⟩ := hclean.isSome hs n
      obtain ⟨k, w, hw, hend⟩ := hclean.exists_end hs hreg hu
      exact ⟨k, w, hw, hend, fun node hnode => (hs.run hw).count_eq_one hend hnode⟩

end Loop

/-- The first of three handlers takes out the second and adds a fourth. -/
def replacing : ℕ → List (Edit ℕ)
  | 0 => [.unRegisterHandler 1, .registerHandler 3]
  | _ + 1 => []

/-- Of these, the three that are left at the end have been called once each. -/
theorem run_iff_replacing :
    (∃ n, ∀ k ≥ n, ∀ handler, Edit.registerHandler handler ∉ replacing k) ∧
      ∃ n s, run replacing (start (Builder.after ([0, 1, 2].map .registerHandler))) n = some s ∧
        s.iter = none ∧ ∀ node ∈ s.builder.nodes, s.called.count node = 1 := by
  have hreg : ∃ n, ∀ k ≥ n, ∀ handler, Edit.registerHandler handler ∉ replacing k := by
    refine ⟨1, fun k hk handler => ?_⟩
    obtain ⟨k, rfl⟩ := Nat.exists_eq_add_of_le' hk
    exact List.not_mem_nil
  refine ⟨hreg, ((run_iff ([0, 1, 2].map .registerHandler) replacing hreg).mpr ?_).2⟩
  rintro n u hu node hnode hiter e he
  cases n with
  | zero =>
    obtain rfl := Option.some.inj hu
    have hid : 0 = node.id := Option.some.inj hiter
    have hfirst : ∀ node ∈ (Builder.after ([0, 1, 2].map Edit.registerHandler)).nodes,
        0 = node.id → node.handler = 0 := by decide
    rw [hfirst node hnode hid]
    rcases List.mem_pair.mp he with rfl | rfl
    · exact Nat.zero_ne_one
    · exact not_false
  | succ n => exact absurd he List.not_mem_nil

/-- A handler that takes itself out: the iterator is advanced from an element that is gone. -/
theorem run_unRegister_self :
    ¬((∀ n, run (fun _ => [.unRegisterHandler 0])
          (start (Builder.after [.registerHandler 0])) n ≠ none) ∧
        ∃ n s, run (fun _ => [.unRegisterHandler 0])
            (start (Builder.after [.registerHandler 0])) n = some s ∧ s.iter = none ∧
          ∀ node ∈ s.builder.nodes, s.called.count node = 1) := by
  rintro ⟨hfault, -⟩
  exact hfault 1 (by decide)

end ForEach

end MToolkit

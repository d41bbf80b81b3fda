import Mathlib.Data.List.Nodup
import Mathlib.Data.List.Basic
import Mathlib.Tactic

/-
This file develops doubly linked segments and rings over arbitrary link functions.
-/

namespace DoublyLinked

variable {P : Type*}

/-- The segment enters from `before`, visits its nodes in order, and leaves to `after`. -/
def Segment (next prev : P → P) (before : P) : List P → P → Prop
  | [], _ => True
  | node :: rest, after =>
      prev node = before ∧ next node = rest.headD after ∧ Segment next prev node rest after

@[simp] theorem segment_nil (next prev : P → P) (before after : P) :
    Segment next prev before [] after := trivial

@[simp] theorem segment_cons (next prev : P → P) (before node after : P) (rest : List P) :
    Segment next prev before (node :: rest) after ↔
      prev node = before ∧ next node = rest.headD after ∧ Segment next prev node rest after :=
  Iff.rfl

/-- A concatenated segment consists of its two halves, which meet at the seam. -/
theorem segment_append (next prev : P → P) (before after : P) (first second : List P) :
    Segment next prev before (first ++ second) after ↔
      Segment next prev before first (second.headD after) ∧
        Segment next prev (first.getLastD before) second after := by
  induction first generalizing before with
  | nil => simp
  | cons node rest ih =>
      have seam : (rest ++ second).headD after = rest.headD (second.headD after) := by
        cases rest <;> simp
      have last : (node :: rest).getLastD before = rest.getLastD node := by
        cases rest <;> simp [List.getLastD]
      rw [List.cons_append, segment_cons, segment_cons, ih, seam, last]
      simp only [and_assoc]

/-- A segment reads only the links of its own nodes. -/
theorem Segment.transport {next prev next' prev' : P → P} {before after : P} {nodes : List P}
    (linked : Segment next prev before nodes after)
    (same : ∀ node ∈ nodes, next' node = next node ∧ prev' node = prev node) :
    Segment next' prev' before nodes after := by
  induction nodes generalizing before with
  | nil => trivial
  | cons node rest ih =>
      obtain ⟨back, forth, tail⟩ := linked
      have here := same node List.mem_cons_self
      refine ⟨here.2.trans back, here.1.trans forth, ih tail ?_⟩
      intro other member
      exact same other (List.mem_cons_of_mem _ member)

/-- A node inside a segment leads to the following node and comes from the preceding one. -/
theorem Segment.links_at {next prev : P → P} {before after node : P} {first second : List P}
    (linked : Segment next prev before (first ++ node :: second) after) :
    next node = second.headD after ∧ prev node = first.getLastD before := by
  rw [segment_append] at linked
  exact ⟨linked.2.2.1, linked.2.1⟩

/-- A node either enters from the `before` end or is led to by the node in front of it. -/
theorem Segment.prev_node {next prev : P → P} {before after node : P} {nodes : List P}
    (linked : Segment next prev before nodes after) (member : node ∈ nodes) :
    prev node = before ∨ prev node ∈ nodes ∧ next (prev node) = node := by
  obtain ⟨first, second, rfl⟩ := List.append_of_mem member
  rcases first.eq_nil_or_concat' with rfl | ⟨front, last, rfl⟩
  · exact Or.inl linked.1
  · right
    have back := linked.links_at.2
    have shape : front ++ [last] ++ node :: second = front ++ last :: (node :: second) := by simp
    rw [shape] at linked
    have forth := linked.links_at.1
    rw [List.getLastD_concat] at back
    rw [back]
    exact ⟨by simp, forth⟩

/-- The last node of a segment leads to its `after` end. -/
theorem Segment.retarget_last {next prev next' prev' : P → P} {before after after' : P}
    {first : List P} {last : P} (linked : Segment next prev before (first ++ [last]) after)
    (target : next' last = after') (back : prev' last = prev last)
    (same : ∀ node ∈ first, next' node = next node ∧ prev' node = prev node) :
    Segment next' prev' before (first ++ [last]) after' := by
  rw [segment_append] at linked ⊢
  refine ⟨?_, back.trans linked.2.1, target, trivial⟩
  exact Segment.transport linked.1 same

/-- The first node of a segment can enter from a new `before` end. -/
theorem Segment.retarget_head {next prev next' prev' : P → P} {before before' after : P}
    {first : P} {rest : List P} (linked : Segment next prev before (first :: rest) after)
    (target : prev' first = before') (forth : next' first = next first)
    (same : ∀ node ∈ rest, next' node = next node ∧ prev' node = prev node) :
    Segment next' prev' before' (first :: rest) after := by
  refine ⟨target, forth.trans linked.2.1, ?_⟩
  exact Segment.transport linked.2.2 same

/-- The left part of a split segment survives when only its last node is retargeted. -/
theorem Segment.retarget_after {next prev next' prev' : P → P} {before after after' : P}
    {nodes : List P} (linked : Segment next prev before nodes after) (distinct : nodes.Nodup)
    (back : ∀ node ∈ nodes, prev' node = prev node)
    (forth : ∀ node ∈ nodes, nodes.getLast? ≠ some node → next' node = next node)
    (target : ∀ node, nodes.getLast? = some node → next' node = after') :
    Segment next' prev' before nodes after' := by
  rcases nodes.eq_nil_or_concat' with rfl | ⟨first, last, rfl⟩
  · trivial
  · apply linked.retarget_last
    · exact target last (by simp)
    · exact back last (by simp)
    · intro node member
      have different : last ≠ node := by
        rintro rfl
        rw [List.nodup_append] at distinct
        exact distinct.2.2 _ member _ (by simp) rfl
      refine ⟨forth node (by simp [member]) ?_, back node (by simp [member])⟩
      simpa using different

/-- The right part of a split segment survives when only its first node is retargeted. -/
theorem Segment.retarget_before {next prev next' prev' : P → P} {before before' after : P}
    {nodes : List P} (linked : Segment next prev before nodes after) (distinct : nodes.Nodup)
    (forth : ∀ node ∈ nodes, next' node = next node)
    (back : ∀ node ∈ nodes, nodes.head? ≠ some node → prev' node = prev node)
    (target : ∀ node, nodes.head? = some node → prev' node = before') :
    Segment next' prev' before' nodes after := by
  cases nodes with
  | nil => trivial
  | cons first rest =>
      apply linked.retarget_head
      · exact target first (by simp)
      · exact forth first (by simp)
      · intro node member
        have different : first ≠ node := by
          rintro rfl
          exact (List.nodup_cons.mp distinct).1 member
        refine ⟨forth node (by simp [member]), back node (by simp [member]) ?_⟩
        simpa using different

/-- Linking a fresh node between two parts extends the segment by that node. -/
theorem Segment.insert {next prev next' prev' : P → P} {before after node : P}
    {first second : List P} (linked : Segment next prev before (first ++ second) after)
    (distinct : (first ++ second).Nodup)
    (nodeNext : next' node = second.headD after) (nodePrev : prev' node = first.getLastD before)
    (lastNext : ∀ other, first.getLast? = some other → next' other = node)
    (headPrev : ∀ other, second.head? = some other → prev' other = node)
    (keptNext : ∀ other ∈ first ++ second, first.getLast? ≠ some other → next' other = next other)
    (keptPrev : ∀ other ∈ first ++ second, second.head? ≠ some other → prev' other = prev other) :
    Segment next' prev' before (first ++ node :: second) after := by
  rw [segment_append] at linked ⊢
  have apart := List.nodup_append.mp distinct
  refine ⟨?_, nodePrev, nodeNext, ?_⟩
  · apply Segment.retarget_after linked.1 apart.1
    · intro other member
      apply keptPrev other (by simp [member])
      intro head
      exact apart.2.2 other member other (List.mem_of_mem_head? head) rfl
    · intro other member
      exact keptNext other (by simp [member])
    · exact lastNext
  · apply Segment.retarget_before linked.2 apart.2.1
    · intro other member
      apply keptNext other (by simp [member])
      intro last
      exact apart.2.2 other (List.mem_of_getLast? last) other member rfl
    · intro other member
      exact keptPrev other (by simp [member])
    · exact headPrev

/-- Cutting out a run of nodes joins the parts before and after it. -/
theorem Segment.cut {next prev next' prev' : P → P} {before after : P}
    {first middle second : List P} (linked : Segment next prev before (first ++ (middle ++ second)) after)
    (distinct : (first ++ (middle ++ second)).Nodup)
    (lastNext : ∀ other, first.getLast? = some other → next' other = second.headD after)
    (headPrev : ∀ other, second.head? = some other → prev' other = first.getLastD before)
    (keptNext : ∀ other ∈ first ++ second, first.getLast? ≠ some other → next' other = next other)
    (keptPrev : ∀ other ∈ first ++ second, second.head? ≠ some other → prev' other = prev other) :
    Segment next' prev' before (first ++ second) after := by
  rw [segment_append] at linked
  have parts := (segment_append _ _ _ _ _ _).mp linked.2
  rw [segment_append]
  have apart := List.nodup_append.mp distinct
  have apart' := List.nodup_append.mp apart.2.1
  refine ⟨?_, ?_⟩
  · apply Segment.retarget_after linked.1 apart.1
    · intro other member
      apply keptPrev other (by simp [member])
      intro head
      exact apart.2.2 other member other
        (List.mem_append_right _ (List.mem_of_mem_head? head)) rfl
    · intro other member
      exact keptNext other (by simp [member])
    · exact lastNext
  · apply Segment.retarget_before parts.2 apart'.2.1
    · intro other member
      apply keptNext other (by simp [member])
      intro last
      exact apart.2.2 other (List.mem_of_getLast? last) other
        (List.mem_append_right _ member) rfl
    · intro other member
      exact keptPrev other (by simp [member])
    · exact headPrev

/-- Unlinking a node joins the parts before and after it. -/
theorem Segment.erase {next prev next' prev' : P → P} {before after node : P}
    {first second : List P} (linked : Segment next prev before (first ++ node :: second) after)
    (distinct : (first ++ node :: second).Nodup)
    (lastNext : ∀ other, first.getLast? = some other → next' other = second.headD after)
    (headPrev : ∀ other, second.head? = some other → prev' other = first.getLastD before)
    (keptNext : ∀ other ∈ first ++ second, first.getLast? ≠ some other → next' other = next other)
    (keptPrev : ∀ other ∈ first ++ second, second.head? ≠ some other → prev' other = prev other) :
    Segment next' prev' before (first ++ second) after :=
  @Segment.cut _ next prev next' prev' before after first [node] second linked distinct lastNext
    headPrev keptNext keptPrev

/-- The last node of a concatenation is the last node of its second part. -/
theorem getLastD_append_cons (first second : List P) (node fallback : P) :
    (first ++ node :: second).getLastD fallback = second.getLastD node := by
  induction first generalizing fallback with
  | nil => exact List.getLastD_cons
  | cons head rest ih =>
      rw [List.cons_append, List.getLastD_cons]
      exact ih head

/-- The first node of a list is its fallback or a member. -/
theorem headD_mem_cons (nodes : List P) (fallback : P) :
    nodes.headD fallback ∈ fallback :: nodes := by
  cases nodes <;> simp

/-- A ring runs from its anchor through its nodes and back to the anchor. -/
structure Ring (next prev : P → P) (anchor : P) (nodes : List P) : Prop where
  forth : next anchor = nodes.headD anchor
  back : prev anchor = nodes.getLastD anchor
  linked : Segment next prev anchor nodes anchor

/-- Every node of a ring can be its anchor. -/
theorem Ring.rotate {next prev : P → P} {anchor node : P} {first second : List P}
    (ring : Ring next prev anchor (first ++ node :: second)) :
    Ring next prev node (second ++ anchor :: first) := by
  have parts := (segment_append _ _ _ _ _ _).mp ring.linked
  have last := getLastD_append_cons second first anchor node
  have head : (second ++ anchor :: first).headD node = second.headD anchor := by
    cases second <;> simp
  have anchorLast := getLastD_append_cons first second node anchor
  have anchorHead : (first ++ node :: second).headD anchor = first.headD node := by
    cases first <;> simp
  refine ⟨parts.2.2.1.trans head.symm, parts.2.1.trans last.symm, ?_⟩
  rw [segment_append]
  refine ⟨parts.2.2.2, ring.back.trans anchorLast, ring.forth.trans anchorHead, parts.1⟩

/-- The links determine the nodes of a segment up to its end. -/
theorem Segment.unique {next prev : P → P} {before before' after : P} {nodes nodes' : List P}
    (linked : Segment next prev before nodes after) (linked' : Segment next prev before' nodes' after)
    (starts : nodes.headD after = nodes'.headD after) (outside : after ∉ nodes)
    (outside' : after ∉ nodes') : nodes = nodes' := by
  induction nodes generalizing before before' nodes' with
  | nil =>
      cases nodes' with
      | nil => rfl
      | cons node rest =>
          obtain rfl : after = node := starts
          exact absurd List.mem_cons_self outside'
  | cons node rest ih =>
      cases nodes' with
      | nil =>
          obtain rfl : node = after := starts
          exact absurd List.mem_cons_self outside
      | cons node' rest' =>
          obtain rfl : node = node' := starts
          have forth := linked.2.1.symm.trans linked'.2.1
          rw [ih linked.2.2 linked'.2.2 forth (fun member => outside (by simp [member]))
            fun member => outside' (by simp [member])]

/-- A node of a segment leads to the end or to a node of the segment. -/
theorem Segment.next_cases {next prev : P → P} {before after node : P} {nodes : List P}
    (linked : Segment next prev before nodes after) (member : node ∈ nodes) :
    next node = after ∨ next node ∈ nodes := by
  obtain ⟨first, second, rfl⟩ := List.append_of_mem member
  rw [linked.links_at.1]
  cases second with
  | nil => exact Or.inl rfl
  | cons head rest => exact Or.inr (by simp)

/-- A set that holds the first node and is closed under the links holds all nodes. -/
theorem Segment.closed {next prev : P → P} {before after : P} {nodes : List P} {holds : P → Prop}
    (linked : Segment next prev before nodes after) (starts : nodes.headD after ≠ after → holds (nodes.headD after))
    (keeps : ∀ node, holds node → next node ≠ after → holds (next node)) (outside : after ∉ nodes) :
    ∀ node ∈ nodes, holds node := by
  induction nodes generalizing before with
  | nil => simp
  | cons node rest ih =>
      have here : holds node := starts fun same => outside (List.mem_cons.mpr (Or.inl same.symm))
      have later : ∀ other ∈ rest, holds other := by
        apply ih linked.2.2 _ fun member => outside (List.mem_cons_of_mem _ member)
        rw [← linked.2.1]
        exact keeps node here
      intro other member
      rcases List.mem_cons.mp member with rfl | inside
      · exact here
      · exact later other inside

/-- A ring reads only the links of its own nodes. -/
theorem Ring.transport {next prev next' prev' : P → P} {anchor : P} {nodes : List P}
    (ring : Ring next prev anchor nodes)
    (same : ∀ node ∈ anchor :: nodes, next' node = next node ∧ prev' node = prev node) :
    Ring next' prev' anchor nodes where
  forth := (same anchor (by simp)).1.trans ring.forth
  back := (same anchor (by simp)).2.trans ring.back
  linked := ring.linked.transport fun node member => same node (by simp [member])

/-- Linking a fresh node behind the anchor extends the ring at its front. -/
theorem Ring.insert {next prev next' prev' : P → P} {anchor node : P} {nodes : List P}
    (ring : Ring next prev anchor nodes) (distinct : (anchor :: nodes).Nodup)
    (anchorNext : next' anchor = node) (nodeNext : next' node = nodes.headD anchor)
    (nodePrev : prev' node = anchor) (headPrev : prev' (nodes.headD anchor) = node)
    (keptNext : ∀ other ∈ nodes, next' other = next other)
    (keptPrev : ∀ other ∈ anchor :: nodes, other ≠ nodes.headD anchor → prev' other = prev other) :
    Ring next' prev' anchor (node :: nodes) := by
  have apart := List.nodup_cons.mp distinct
  refine ⟨anchorNext, ?_, ?_⟩
  · cases nodes with
    | nil => exact headPrev
    | cons head rest =>
        have different : anchor ≠ head := fun same => apart.1 (by simp [same])
        rw [keptPrev anchor (by simp) different, ring.back]
        simp [List.getLastD]
  · have whole : Segment next prev anchor ([] ++ nodes) anchor := ring.linked
    apply whole.insert apart.2 nodeNext nodePrev
    · simp
    · intro other head
      cases nodes with
      | nil => cases head
      | cons front rest =>
          obtain rfl : front = other := by simpa using head
          exact headPrev
    · intro other member _
      exact keptNext other member
    · intro other member head
      apply keptPrev other (by simp [show other ∈ nodes from member])
      cases nodes with
      | nil => cases member
      | cons front rest => simpa [eq_comm] using head

/-- Unlinking a node of a ring joins its neighbours. -/
theorem Ring.erase {next prev next' prev' : P → P} {anchor node : P} {first second : List P}
    (ring : Ring next prev anchor (first ++ node :: second))
    (distinct : (anchor :: (first ++ node :: second)).Nodup)
    (lastNext : next' (first.getLastD anchor) = second.headD anchor)
    (headPrev : prev' (second.headD anchor) = first.getLastD anchor)
    (keptNext : ∀ other ∈ anchor :: (first ++ second), other ≠ first.getLastD anchor →
      next' other = next other)
    (keptPrev : ∀ other ∈ anchor :: (first ++ second), other ≠ second.headD anchor →
      prev' other = prev other) :
    Ring next' prev' anchor (first ++ second) := by
  have apart := List.nodup_cons.mp distinct
  have outside : ∀ other ∈ first ++ second, other ≠ anchor := by
    rintro other member rfl
    apply apart.1
    rcases List.mem_append.mp member with left | right
    · simp [left]
    · simp [right]
  refine ⟨?_, ?_, ?_⟩
  · cases first with
    | nil => exact lastNext
    | cons head rest =>
        have different : anchor ≠ (head :: rest).getLastD anchor := by
          intro same
          apply outside ((head :: rest).getLastD anchor) _ same.symm
          rw [List.getLastD_cons]
          exact List.mem_append_left _ List.getLastD_mem_cons
        rw [keptNext anchor (by simp) different, ring.forth]
        rfl
  · cases second with
    | nil => simpa using headPrev
    | cons head rest =>
        have different : anchor ≠ head := (outside head (by simp)).symm
        rw [keptPrev anchor (by simp) different, ring.back, getLastD_append_cons,
          getLastD_append_cons, List.getLastD_cons]
  · apply ring.linked.erase apart.2
    · intro other last
      rw [List.getLastD_eq_getLast?, last] at lastNext
      exact lastNext
    · intro other head
      rw [List.headD_eq_head?_getD, head] at headPrev
      exact headPrev
    · intro other member last
      apply keptNext other (List.mem_cons_of_mem _ member)
      intro same
      cases found : first.getLast? with
      | none =>
          rw [List.getLastD_eq_getLast?, found] at same
          exact outside other member same
      | some final =>
          rw [List.getLastD_eq_getLast?, found] at same
          exact last (found.trans (congrArg some same.symm))
    · intro other member head
      apply keptPrev other (List.mem_cons_of_mem _ member)
      intro same
      cases found : second.head? with
      | none =>
          rw [List.headD_eq_head?_getD, found] at same
          exact outside other member same
      | some front =>
          rw [List.headD_eq_head?_getD, found] at same
          exact head (found.trans (congrArg some same.symm))

end DoublyLinked

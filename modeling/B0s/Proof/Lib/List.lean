import B0s.Library.DoublyLinked
import B0s.Construction.Lib.List

/-
This file proves that the list operations add and delete one node of a ring.
-/

namespace B0s
open DoublyLinked

/-- The memory holds a ring of distinct nodes at addresses other than null. -/
structure Links.Holds (links : Links) (anchor : Nat) (nodes : List Nat) : Prop where
  ring : Ring links.next links.prev anchor nodes
  distinct : (anchor :: nodes).Nodup
  nonnull : ∀ node ∈ anchor :: nodes, node ≠ NULL

theorem Links.Holds.headD_ne_null {links : Links} {anchor : Nat} {nodes : List Nat}
    (holds : links.Holds anchor nodes) : nodes.headD anchor ≠ NULL :=
  holds.nonnull _ (headD_mem_cons _ _)

/-- The links determine the nodes of a ring. -/
theorem Links.Holds.unique {links : Links} {anchor : Nat} {nodes nodes' : List Nat}
    (holds : links.Holds anchor nodes) (holds' : links.Holds anchor nodes') : nodes = nodes' :=
  holds.ring.linked.unique holds'.ring.linked (holds.ring.forth.symm.trans holds'.ring.forth)
    (List.nodup_cons.mp holds.distinct).1 (List.nodup_cons.mp holds'.distinct).1

/-- Every node of a ring can be its anchor. -/
theorem Links.Holds.rotate {links : Links} {anchor node : Nat} {first second : List Nat}
    (holds : links.Holds anchor (first ++ node :: second)) :
    links.Holds node (second ++ anchor :: first) := by
  have same : (anchor :: (first ++ node :: second)).Perm (node :: (second ++ anchor :: first)) := by
    rw [← List.cons_append, ← List.cons_append]
    exact List.perm_append_comm
  refine ⟨holds.ring.rotate, same.nodup_iff.mp holds.distinct, ?_⟩
  intro other member
  exact holds.nonnull other (same.mem_iff.mpr member)

/-- The links of all nodes outside a list are the same in two memories. -/
def Links.SameOutside (nodes : List Nat) (links links' : Links) : Prop :=
  ∀ other ∉ nodes, links'.next other = links.next other ∧ links'.prev other = links.prev other

/-- A ring stays when only links of other nodes change. -/
theorem Links.Holds.frame {links links' : Links} {anchor : Nat} {nodes touched : List Nat}
    (holds : links.Holds anchor nodes) (same : links.SameOutside touched links')
    (apart : List.Disjoint touched (anchor :: nodes)) : links'.Holds anchor nodes :=
  ⟨holds.ring.transport fun node member => same node fun inside => apart inside member, holds.distinct,
    holds.nonnull⟩

/-- Linking a fresh node behind any node of a ring extends the ring there. -/
theorem listInsert_holds {links : Links} {anchor el : Nat} {nodes : List Nat}
    (holds : links.Holds anchor nodes) (fresh : el ∉ anchor :: nodes) (nonnull : el ≠ NULL) :
    ∃ links', listInsert el anchor (nodes.headD anchor) links = .ok links' ∧ links'.Holds anchor (el :: nodes) ∧
      links.SameOutside (el :: anchor :: nodes) links' := by
  have anchorNonnull : anchor ≠ NULL := holds.nonnull anchor (by simp)
  have nextNonnull := holds.headD_ne_null
  have nextMember := headD_mem_cons nodes anchor
  have elAnchor : el ≠ anchor := fun same => fresh (by simp [same])
  have elNext : el ≠ nodes.headD anchor := fun same => fresh (same ▸ nextMember)
  have apart := List.nodup_cons.mp holds.distinct
  have added : listInsert el anchor (nodes.headD anchor) links = .ok
      ⟨Function.update (Function.update links.next el (nodes.headD anchor)) anchor el,
        Function.update (Function.update links.prev (nodes.headD anchor) el) el anchor⟩ := by
    simp only [listInsert, Links.setPrev, Links.setNext, if_neg anchorNonnull, if_neg nextNonnull,
      if_neg nonnull, bind, Except.bind]
  refine ⟨_, added, ⟨?_, ?_, ?_⟩, ?_⟩
  · apply holds.ring.insert holds.distinct
    · exact Function.update_self _ _ _
    · dsimp only
      rw [Function.update_of_ne elAnchor, Function.update_self]
    · exact Function.update_self _ _ _
    · dsimp only
      rw [Function.update_of_ne (Ne.symm elNext), Function.update_self]
    · intro other member
      have notAnchor : other ≠ anchor := fun same => apart.1 (same ▸ member)
      have notEl : other ≠ el := fun same => fresh (by simp [← same, member])
      dsimp only
      rw [Function.update_of_ne notAnchor, Function.update_of_ne notEl]
    · intro other member notNext
      have notEl : other ≠ el := fun same => fresh (same ▸ member)
      dsimp only
      rw [Function.update_of_ne notEl, Function.update_of_ne notNext]
  · have inside : el ∉ nodes := fun member => fresh (by simp [member])
    simp [List.nodup_cons, Ne.symm elAnchor, inside, apart.1, apart.2]
  · intro other member
    rcases List.mem_cons.mp member with rfl | member
    · exact anchorNonnull
    · rcases List.mem_cons.mp member with rfl | member
      · exact nonnull
      · exact holds.nonnull other (by simp [member])
  · intro other outside
    have notEl : other ≠ el := fun same => outside (by simp [same])
    have notAnchor : other ≠ anchor := fun same => outside (by simp [same])
    have notNext : other ≠ nodes.headD anchor := fun same =>
      outside (same ▸ List.mem_cons_of_mem _ nextMember)
    dsimp only
    rw [Function.update_of_ne notAnchor, Function.update_of_ne notEl, Function.update_of_ne notEl,
      Function.update_of_ne notNext]
    exact ⟨rfl, rfl⟩

/-- Adding a fresh node puts it behind the head of the list. -/
theorem listAdd_holds {links : Links} {head el : Nat} {nodes : List Nat}
    (holds : links.Holds head nodes) (fresh : el ∉ head :: nodes) (nonnull : el ≠ NULL) :
    ∃ links', listAdd el head links = .ok links' ∧ links'.Holds head (el :: nodes) ∧
      links.SameOutside (el :: head :: nodes) links' := by
  have headNonnull : head ≠ NULL := holds.nonnull head (by simp)
  have reads : listAdd el head links = listInsert el head (nodes.headD head) links := by
    rw [listAdd, Links.readNext, if_neg headNonnull, holds.ring.forth]
    rfl
  rw [reads]
  exact listInsert_holds holds fresh nonnull

/-- Adding a fresh node at the tail puts it before the head of the list. -/
theorem listAddTail_holds {links : Links} {head el : Nat} {nodes : List Nat}
    (holds : links.Holds head nodes) (fresh : el ∉ head :: nodes) (nonnull : el ≠ NULL) :
    ∃ links', listAddTail el head links = .ok links' ∧ links'.Holds head (nodes ++ [el]) ∧
      links.SameOutside (el :: head :: nodes) links' := by
  have headNonnull : head ≠ NULL := holds.nonnull head (by simp)
  have reads : listAddTail el head links = listInsert el (nodes.getLastD head) head links := by
    rw [listAddTail, Links.readPrev, if_neg headNonnull, holds.ring.back]
    rfl
  rw [reads]
  rcases nodes.eq_nil_or_concat' with rfl | ⟨front, last, rfl⟩
  · exact listInsert_holds holds fresh nonnull
  · -- The last node is the anchor of the same ring, and the head follows it.
    have turned := @Links.Holds.rotate links head last front [] holds
    have order : (last :: head :: front).Perm (head :: (front ++ [last])) :=
      (List.Perm.swap head last front).trans ((List.perm_append_singleton last front).symm.cons head)
    obtain ⟨links', inserted, holds', same⟩ := listInsert_holds turned
      (fun member => fresh (order.mem_iff.mp member)) nonnull
    rw [List.getLastD_concat]
    refine ⟨links', inserted, ?_, ?_⟩
    · have back := @Links.Holds.rotate links' last head [el] front holds'
      simpa using back
    · intro other outside
      exact same other fun member => outside ((order.cons el).mem_iff.mp member)

/-- Deleting a node joins its neighbours and clears its own links. -/
theorem listDel_holds {links : Links} {anchor node : Nat} {first second : List Nat}
    (holds : links.Holds anchor (first ++ node :: second)) :
    ∃ links', listDel node links = .ok links' ∧ links'.Holds anchor (first ++ second) ∧
      links'.next node = NULL ∧ links'.prev node = NULL ∧
      links.SameOutside (anchor :: (first ++ node :: second)) links' := by
  have links_at := holds.ring.linked.links_at
  have nodeNonnull : node ≠ NULL := holds.nonnull node (by simp)
  have sub : (anchor :: (first ++ second)).Sublist (anchor :: (first ++ node :: second)) := by
    apply List.Sublist.cons_cons
    exact List.Sublist.append_left (List.sublist_cons_self _ _) _
  have distinct := holds.distinct
  have firstMember : first.getLastD anchor ∈ anchor :: (first ++ second) := by
    have member := @List.getLastD_mem_cons _ first anchor
    rcases List.mem_cons.mp member with same | inside
    · rw [same]
      exact List.mem_cons_self
    · exact List.mem_cons_of_mem _ (List.mem_append_left _ inside)
  have secondMember : second.headD anchor ∈ anchor :: (first ++ second) := by
    rcases List.mem_cons.mp (headD_mem_cons second anchor) with same | inside
    · rw [same]
      exact List.mem_cons_self
    · exact List.mem_cons_of_mem _ (List.mem_append_right _ inside)
  have outside : ∀ other ∈ anchor :: (first ++ second), other ≠ node := by
    have order := @List.perm_middle _ node (anchor :: first) second
    rw [List.cons_append, List.cons_append] at order
    have apart := List.nodup_cons.mp (order.nodup_iff.mp distinct)
    rintro other member rfl
    exact apart.1 member
  have firstNonnull : first.getLastD anchor ≠ NULL := holds.nonnull _ (sub.subset firstMember)
  have secondNonnull : second.headD anchor ≠ NULL := holds.nonnull _ (sub.subset secondMember)
  have firstNode := outside _ firstMember
  have secondNode := outside _ secondMember
  have deleted : listDel node links = .ok
      ⟨Function.update (Function.update links.next (first.getLastD anchor) (second.headD anchor))
          node NULL,
        Function.update (Function.update links.prev (second.headD anchor) (first.getLastD anchor))
          node NULL⟩ := by
    simp only [listDel, listUnlink, Links.setPrev, Links.setNext, links_at.1, links_at.2,
      if_neg firstNonnull, if_neg secondNonnull, if_neg nodeNonnull, bind, Except.bind]
  refine ⟨_, deleted, ⟨?_, ?_, ?_⟩, ?_, ?_, ?_⟩
  · apply holds.ring.erase distinct
    · dsimp only
      rw [Function.update_of_ne firstNode, Function.update_self]
    · dsimp only
      rw [Function.update_of_ne secondNode, Function.update_self]
    · intro other member notLast
      dsimp only
      rw [Function.update_of_ne (outside other member), Function.update_of_ne notLast]
    · intro other member notHead
      dsimp only
      rw [Function.update_of_ne (outside other member), Function.update_of_ne notHead]
  · exact distinct.sublist sub
  · intro other member
    exact holds.nonnull other (sub.subset member)
  · exact Function.update_self _ _ _
  · exact Function.update_self _ _ _
  · intro other foreign
    have notNode : other ≠ node := fun same => foreign (by simp [same])
    have notLast : other ≠ first.getLastD anchor := fun same => foreign (same ▸ sub.subset firstMember)
    have notHead : other ≠ second.headD anchor := fun same => foreign (same ▸ sub.subset secondMember)
    dsimp only
    rw [Function.update_of_ne notNode, Function.update_of_ne notNode, Function.update_of_ne notLast,
      Function.update_of_ne notHead]
    exact ⟨rfl, rfl⟩

end B0s

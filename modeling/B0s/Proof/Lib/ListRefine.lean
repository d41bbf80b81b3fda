import B0s.Proof.Lib.List

/-
This file proves that the intrusive lists of one memory refine a map from heads to sequences.
-/

namespace B0s
open DoublyLinked

/-- The call returns with a list at the head. It changes only links of these nodes, so it keeps every list
without them. -/
def GivesList (links : Links) (outcome : Outcome Links) (head : Nat) (nodes touched : List Nat) : Prop :=
  ∃ links', outcome = .ok links' ∧ links'.Holds head nodes ∧ links.SameOutside touched links' ∧
    ∀ head' nodes', links.Holds head' nodes' → List.Disjoint touched (head' :: nodes') → links'.Holds head' nodes'

section
variable {links : Links} {head el : Nat} {nodes : List Nat}

/-- An initialised head is an empty list. -/
theorem initListHead_gives (links : Links) (nonnull : head ≠ NULL) :
    GivesList links (initListHead head links) head [] [head] := by
  have initialised : initListHead head links = .ok
      ⟨Function.update links.next head head, Function.update links.prev head head⟩ := by
    simp only [initListHead, Links.setNext, Links.setPrev, if_neg nonnull, bind, Except.bind]
  have same : links.SameOutside [head]
      ⟨Function.update links.next head head, Function.update links.prev head head⟩ := by
    intro other outside
    have different : other ≠ head := fun equal => outside (by simp [equal])
    exact ⟨Function.update_of_ne different _ _, Function.update_of_ne different _ _⟩
  refine ⟨_, initialised, ⟨⟨?_, ?_, trivial⟩, by simp, by simpa using nonnull⟩, same, ?_⟩
  · exact Function.update_self _ _ _
  · exact Function.update_self _ _ _
  · intro head' nodes' holds apart
    exact holds.frame same apart

theorem listAdd_gives (holds : links.Holds head nodes) (fresh : el ∉ head :: nodes) (nonnull : el ≠ NULL) :
    GivesList links (listAdd el head links) head (el :: nodes) (el :: head :: nodes) := by
  obtain ⟨links', added, result, same⟩ := listAdd_holds holds fresh nonnull
  exact ⟨links', added, result, same, fun _ _ other apart => other.frame same apart⟩

theorem listAddTail_gives (holds : links.Holds head nodes) (fresh : el ∉ head :: nodes) (nonnull : el ≠ NULL) :
    GivesList links (listAddTail el head links) head (nodes ++ [el]) (el :: head :: nodes) := by
  obtain ⟨links', added, result, same⟩ := listAddTail_holds holds fresh nonnull
  exact ⟨links', added, result, same, fun _ _ other apart => other.frame same apart⟩

/-- A deleted node leaves the sequence, and its links are null. -/
theorem listDel_gives (holds : links.Holds head nodes) (member : el ∈ nodes) :
    GivesList links (listDel el links) head (nodes.erase el) (head :: nodes) ∧
      ∀ links', listDel el links = .ok links' → links'.next el = NULL ∧ links'.prev el = NULL := by
  obtain ⟨first, second, rfl⟩ := List.append_of_mem member
  have distinct := (List.nodup_cons.mp holds.distinct).2
  have outside : el ∉ first := by
    intro inside
    exact (List.nodup_append.mp distinct).2.2 el inside el List.mem_cons_self rfl
  have erased : (first ++ el :: second).erase el = first ++ second := by
    rw [List.erase_append_right _ outside, List.erase_cons_head]
  obtain ⟨links', deleted, result, nextNull, prevNull, same⟩ := listDel_holds holds
  rw [erased]
  refine ⟨⟨links', deleted, result, same, fun _ _ other apart => other.frame same apart⟩, ?_⟩
  intro final returned
  obtain rfl := Except.ok.inj (deleted.symm.trans returned)
  exact ⟨nextNull, prevNull⟩

/-- The test reads whether the head leads back to itself. -/
theorem listEmpty_iff (holds : links.Holds head nodes) :
    ∃ empty, listEmpty head links = .ok empty ∧ (empty = true ↔ nodes = []) := by
  have nonnull : head ≠ NULL := holds.nonnull head (by simp)
  refine ⟨nodes.headD head == head, ?_, ?_⟩
  · rw [listEmpty, Links.readNext, if_neg nonnull, holds.ring.forth]
    rfl
  · cases nodes with
    | nil => simp
    | cons node rest =>
        have different : node ≠ head := fun same => (List.nodup_cons.mp holds.distinct).1 (by simp [same])
        simp [different]

end

/-- An initialised head is an empty list, the operations add at the front, add at the tail, and delete in the
sequence that a list denotes, the test recognises the empty sequence, and each operation changes only links of
its own list and of the node that it adds. -/
theorem listCalls_refine_sequence (links : Links) :
    (∀ head, head ≠ NULL → GivesList links (initListHead head links) head [] [head]) ∧
    ∀ head nodes, links.Holds head nodes →
      (∀ el, el ∉ head :: nodes → el ≠ NULL →
        GivesList links (listAdd el head links) head (el :: nodes) (el :: head :: nodes) ∧
        GivesList links (listAddTail el head links) head (nodes ++ [el]) (el :: head :: nodes)) ∧
      (∀ el ∈ nodes, GivesList links (listDel el links) head (nodes.erase el) (head :: nodes) ∧
        ∀ links', listDel el links = .ok links' → links'.next el = NULL ∧ links'.prev el = NULL) ∧
      ∃ empty, listEmpty head links = .ok empty ∧ (empty = true ↔ nodes = []) := by
  refine ⟨fun head nonnull => initListHead_gives links nonnull, ?_⟩
  intro head nodes holds
  refine ⟨?_, ?_, listEmpty_iff holds⟩
  · intro el fresh nonnull
    exact ⟨listAdd_gives holds fresh nonnull, listAddTail_gives holds fresh nonnull⟩
  · intro el member
    exact listDel_gives holds member

/-- In a memory of zeros a head is initialised, nodes are added at both ends, and one in the middle is deleted. -/
theorem listCalls_refine_sequence_three :
    ∃ links first second third last, initListHead 16 ⟨fun _ => 0, fun _ => 0⟩ = .ok links ∧
      listAdd 32 16 links = .ok first ∧ listAddTail 48 16 first = .ok second ∧ listAddTail 64 16 second = .ok third ∧
      third.Holds 16 [32, 48, 64] ∧ listDel 48 third = .ok last ∧ last.Holds 16 [32, 64] ∧ last.next 48 = NULL := by
  obtain ⟨links, initialised, empty, -⟩ :=
    (listCalls_refine_sequence ⟨fun _ => 0, fun _ => 0⟩).1 16 (by decide)
  obtain ⟨first, added, one, -⟩ :=
    (((listCalls_refine_sequence links).2 16 [] empty).1 32 (by decide) (by decide)).1
  obtain ⟨second, appended, two, -⟩ :=
    (((listCalls_refine_sequence first).2 16 [32] one).1 48 (by decide) (by decide)).2
  obtain ⟨third, appended', three, -⟩ :=
    (((listCalls_refine_sequence second).2 16 [32, 48] two).1 64 (by decide) (by decide)).2
  obtain ⟨⟨last, deleted, rest, -⟩, nulls⟩ :=
    ((listCalls_refine_sequence third).2 16 [32, 48, 64] three).2.1 48 (by decide)
  exact ⟨links, first, second, third, last, initialised, added, appended, appended', three, deleted, rest,
    (nulls last deleted).1⟩

end B0s

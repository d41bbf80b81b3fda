import B0s.Proof.Lib.List

/-
This file proves that a safe loop that deletes nodes visits each node once and filters its list.
-/

namespace B0s
open DoublyLinked

section
variable {condition : Nat → Bool} {links : Links} {head : Nat}

/-- The body keeps a node of the ring or unlinks it. -/
theorem listDelWhen_holds {kept rest : List Nat} {pos : Nat} (holds : links.Holds head (kept ++ pos :: rest)) :
    ∃ links', listDelWhen condition pos links = .ok links' ∧
      links'.Holds head (kept ++ ((if condition pos then [] else [pos]) ++ rest)) := by
  unfold listDelWhen
  split_ifs with deletes
  · obtain ⟨links', deleted, result, -⟩ := listDel_holds holds
    exact ⟨links', deleted, result⟩
  · exact ⟨links, rfl, holds⟩

/-- The nodes in front of the current one are filtered already, and the saved node leads the rest. -/
theorem listForEachSafeFrom_filter {kept rest : List Nat} (holds : links.Holds head (kept ++ rest)) :
    ∃ links', (∀ steps > rest.length, listForEachSafeFrom head (listDelWhen condition) steps (rest.headD head)
        (links.next (rest.headD head)) links = .ok (rest, links')) ∧
      links'.Holds head (kept ++ rest.filter fun node => !condition node) := by
  induction rest generalizing kept links with
  | nil =>
      refine ⟨links, ?_, holds⟩
      intro steps enough
      obtain ⟨steps, rfl⟩ := Nat.exists_eq_succ_of_ne_zero (Nat.ne_zero_of_lt enough)
      rw [List.headD_nil, listForEachSafeFrom, if_pos rfl]
  | cons pos rest ih =>
      have different : pos ≠ head := by
        rintro rfl
        exact (List.nodup_cons.mp holds.distinct).1 (by simp)
      have saved : links.next pos = rest.headD head := holds.ring.linked.links_at.1
      have nonnull : rest.headD head ≠ NULL := by
        apply holds.nonnull
        have member := headD_mem_cons rest head
        rw [List.mem_cons] at member
        rw [List.mem_cons, List.mem_append, List.mem_cons]
        tauto
      obtain ⟨middle, ran, filtered⟩ := @listDelWhen_holds condition links head kept rest pos holds
      rw [← List.append_assoc] at filtered
      obtain ⟨links', looped, result⟩ := ih filtered
      refine ⟨links', ?_, ?_⟩
      · intro steps enough
        obtain ⟨steps, rfl⟩ := Nat.exists_eq_succ_of_ne_zero (Nat.ne_zero_of_lt enough)
        have rest_looped := looped steps (Nat.lt_of_succ_lt_succ enough)
        simp only [List.headD_cons, listForEachSafeFrom, if_neg different, saved, ran, Links.readNext, if_neg nonnull,
          rest_looped, bind, Except.bind]
      · have shape : (if condition pos then [] else [pos]) ++ rest.filter (fun node => !condition node) =
            (pos :: rest).filter fun node => !condition node := by
          cases deletes : condition pos <;> simp [deletes]
        rwa [List.append_assoc, shape] at result

end

/-- The loop visits the nodes of the list in order, each of them once, and it leaves the list of those nodes for
which the condition is false. -/
theorem listForEachSafe_filter (condition : Nat → Bool) {links : Links} {head : Nat} {nodes : List Nat}
    (holds : links.Holds head nodes) :
    ∃ links', (∀ steps > nodes.length,
        listForEachSafe steps head (listDelWhen condition) links = .ok (nodes, links')) ∧ nodes.Nodup ∧
      links'.Holds head (nodes.filter fun node => !condition node) := by
  obtain ⟨links', looped, result⟩ := @listForEachSafeFrom_filter condition links head [] nodes holds
  refine ⟨links', ?_, (List.nodup_cons.mp holds.distinct).2, result⟩
  intro steps enough
  have nonnull : head ≠ NULL := holds.nonnull head (by simp)
  have first := holds.headD_ne_null
  have ran := looped steps enough
  simp only [listForEachSafe, Links.readNext, if_neg nonnull, holds.ring.forth, if_neg first, ran, bind, Except.bind]

/-- The even one of three nodes is deleted. -/
theorem listForEachSafe_filter_even :
    ∃ links links', Links.Holds links 10 [1, 2, 3] ∧
      (∀ steps > 3, listForEachSafe steps 10 (listDelWhen fun node => node % 2 == 0) links = .ok ([1, 2, 3], links')) ∧
      links'.Holds 10 [1, 3] := by
  have holds : Links.Holds ⟨fun node => if node = 10 then 1 else if node = 3 then 10 else node + 1,
      fun node => if node = 10 then 3 else if node = 1 then 10 else node - 1⟩ 10 [1, 2, 3] :=
    ⟨⟨rfl, rfl, rfl, rfl, rfl, rfl, rfl, rfl, trivial⟩, by decide, by decide⟩
  obtain ⟨links', looped, -, result⟩ := listForEachSafe_filter (fun node => node % 2 == 0) holds
  exact ⟨_, links', holds, looped, result⟩

end B0s

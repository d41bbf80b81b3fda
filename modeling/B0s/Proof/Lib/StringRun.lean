import B0s.Construction.Lib.String

/-
This file proves what `strlen` counts, what `memcmp` compares, and what `strcpy` leaves in its destination.
-/

namespace B0s

section
variable {str src dst : Str} {len : Nat}

theorem strlenFrom_le (str : Str) (max i : Nat) : strlenFrom str max i ≤ i + max := by
  induction max generalizing i with
  | zero => exact le_rfl
  | succ max ih =>
      rw [strlenFrom]
      split_ifs with null
      · exact Nat.le_add_right i _
      · have later := ih (i + 1)
        omega

theorem strlen_le (str : Str) (max : Nat) : strlen str max ≤ max := by
  have bound := strlenFrom_le str max 0
  rwa [Nat.zero_add] at bound

/-- The count stops at the null character or at the maximum. -/
theorem strlenFrom_eq (terminated : str.Terminated len) (max : Nat) {i : Nat} (inside : i ≤ len) :
    strlenFrom str max i = min (i + max) len := by
  induction max generalizing i with
  | zero => exact (Nat.min_eq_left inside).symm
  | succ max ih =>
      rw [strlenFrom]
      split_ifs with null
      · have last : i = len := by
          by_contra different
          exact terminated.chars i (by omega) null
        omega
      · have before : i < len := by
          rcases Nat.lt_or_eq_of_le inside with before | rfl
          · exact before
          · exact absurd terminated.null null
        rw [ih before]
        omega

theorem strlen_eq (terminated : str.Terminated len) (max : Nat) : strlen str max = min max len := by
  rw [strlen, strlenFrom_eq terminated max (Nat.zero_le len), Nat.zero_add]

theorem memcmp_eq_zero {a b : Str} {size : Nat} : memcmp a b size = 0 ↔ ∀ index < size, a index = b index := by
  induction size with
  | zero => simp [memcmp]
  | succ size ih =>
      rw [memcmp, Nat.forall_lt_succ_right]
      split_ifs with different
      · constructor
        · exact False.elim
        · intro same
          exact absurd same.2 different
      · rw [ih, and_iff_left (not_not.mp different)]

/-- From a character on, the loop copies all characters and no null character. -/
theorem strcpyFrom_copies (terminated : src.Terminated len) {left i steps : Nat} (place : i + left + 1 = len)
    (enough : left < steps) (dst : Str) :
    ∃ reads, strcpyFrom src steps i dst = .ok (fun index => if i ≤ index ∧ index < len then src index else dst index, reads) ∧
      ∀ index ∈ reads, index ≤ len := by
  induction left generalizing i steps dst with
  | zero =>
      obtain ⟨steps, rfl⟩ := Nat.exists_eq_succ_of_ne_zero (Nat.ne_zero_of_lt enough)
      have next : u64 (i + 1) = len := by
        rw [← place]
        exact Nat.mod_eq_of_lt (by have small := terminated.small; omega)
      refine ⟨[i, len], ?_, by simp; omega⟩
      rw [strcpyFrom]
      dsimp only
      rw [next, if_pos terminated.null]
      have copied : Function.update dst i (src i) = fun index => if i ≤ index ∧ index < len then src index else dst index := by
        funext index
        by_cases same : index = i
        · rw [same, Function.update_self, if_pos (by omega)]
        · rw [Function.update_of_ne same, if_neg (by omega)]
      rw [copied]
  | succ left ih =>
      obtain ⟨steps, rfl⟩ := Nat.exists_eq_succ_of_ne_zero (Nat.ne_zero_of_lt enough)
      have next : u64 (i + 1) = i + 1 := Nat.mod_eq_of_lt (by have small := terminated.small; omega)
      have more : src (i + 1) ≠ 0 := terminated.chars (i + 1) (by omega)
      obtain ⟨reads, ran, inside⟩ := ih (show i + 1 + left + 1 = len by omega) (Nat.lt_of_succ_lt_succ enough)
        (Function.update dst i (src i))
      refine ⟨i :: (i + 1) :: reads, ?_, ?_⟩
      · rw [strcpyFrom]
        dsimp only
        rw [next, if_neg more, ran]
        have copied : (fun index => if i + 1 ≤ index ∧ index < len then src index else Function.update dst i (src i) index) =
            fun index => if i ≤ index ∧ index < len then src index else dst index := by
          funext index
          by_cases same : index = i
          · rw [same, if_neg (by omega), Function.update_self, if_pos (by omega)]
          · rw [Function.update_of_ne same]
            exact if_congr (by omega) rfl rfl
        rw [copied]
        rfl
      · intro index member
        rcases List.mem_cons.mp member with rfl | member
        · omega
        · rcases List.mem_cons.mp member with rfl | member
          · omega
          · exact inside index member

theorem strcpy_copies (terminated : src.Terminated len) (nonempty : 0 < len) (dst : Str) :
    ∃ reads, strcpy dst src = .ok (fun index => if index < len then src index else dst index, reads) ∧
      ∀ index ∈ reads, index ≤ len := by
  have small := terminated.small
  obtain ⟨reads, ran, inside⟩ := strcpyFrom_copies terminated (show 0 + (len - 1) + 1 = len by omega)
    (show len - 1 < walkLimit by unfold walkLimit; omega) dst
  refine ⟨reads, ?_, inside⟩
  rw [strcpy, ran]
  simp only [Nat.zero_le, true_and]

/-- The empty string is read behind its end. -/
theorem strcpy_empty_reads {dst' : Str} {reads : List Nat} (ran : strcpy dst src = .ok (dst', reads)) : 1 ∈ reads := by
  have limit : walkLimit = (2 ^ 64 - 1) + 1 := by decide
  have next : u64 (0 + 1) = 1 := by decide
  rw [strcpy, limit, strcpyFrom] at ran
  dsimp only at ran
  rw [next] at ran
  split_ifs at ran with null
  · obtain ⟨-, rfl⟩ := Prod.mk.inj (Except.ok.inj ran)
    exact List.mem_cons_of_mem _ List.mem_cons_self
  · obtain ⟨⟨final, later⟩, -, rest⟩ := Outcome.bind_eq_ok.mp ran
    obtain ⟨-, rfl⟩ := Prod.mk.inj (Except.ok.inj rest)
    exact List.mem_cons_of_mem _ List.mem_cons_self

end

/-- The copy reads no byte behind the null character, the destination holds the string with its null character, and
the bytes behind it are as they were. -/
def CopiesString (src : Str) (len : Nat) (dst : Str) : Prop :=
  ∃ dst' reads, strcpy dst src = .ok (dst', reads) ∧ (∀ index ∈ reads, index ≤ len) ∧
    (∀ index < len, dst' index = src index) ∧ dst' len = 0 ∧ ∀ index > len, dst' index = dst index

/-- A copy is right exactly when the string is not empty and the destination holds a null character at its end. -/
theorem strcpy_copiesString_iff {src dst : Str} {len : Nat} (terminated : src.Terminated len) :
    CopiesString src len dst ↔ 0 < len ∧ dst len = 0 := by
  constructor
  · rintro ⟨dst', reads, ran, inside, -, null, -⟩
    have nonempty : 0 < len := by
      by_contra empty
      have last := inside 1 (strcpy_empty_reads ran)
      omega
    obtain ⟨reads', copied, -⟩ := strcpy_copies terminated nonempty dst
    obtain ⟨rfl, -⟩ := Prod.mk.inj (Except.ok.inj (copied.symm.trans ran))
    exact ⟨nonempty, (if_neg (Nat.lt_irrefl len)).symm.trans null⟩
  · rintro ⟨nonempty, null⟩
    obtain ⟨reads, copied, inside⟩ := strcpy_copies terminated nonempty dst
    refine ⟨_, reads, copied, inside, ?_, ?_, ?_⟩
    · intro index before
      exact if_pos before
    · exact (if_neg (Nat.lt_irrefl len)).trans null
    · intro index behind
      exact if_neg (Nat.lt_asymm behind)

/-- The string "a" is copied right into zeros. -/
theorem strcpy_copiesString_iff_zeros :
    Str.Terminated (fun index => if index = 0 then 0x61 else 0) 1 ∧
      CopiesString (fun index => if index = 0 then 0x61 else 0) 1 fun _ => 0 := by
  have terminated : Str.Terminated (fun index => if index = 0 then 0x61 else 0) 1 :=
    ⟨by decide, by decide, by decide⟩
  exact ⟨terminated, (strcpy_copiesString_iff terminated).mpr ⟨by decide, rfl⟩⟩

/-- The string "a" is not terminated behind stale bytes. -/
theorem strcpy_stale :
    Str.Terminated (fun index => if index = 0 then 0x61 else 0) 1 ∧
      ¬CopiesString (fun index => if index = 0 then 0x61 else 0) 1 fun _ => 0x62 := by
  refine ⟨⟨by decide, by decide, by decide⟩, ?_⟩
  rintro ⟨dst', reads, ran, -, -, null, -⟩
  have copied : strcpy (fun _ => 0x62) (fun index => if index = 0 then 0x61 else 0) =
      .ok (Function.update (fun _ => 0x62) 0 0x61, [0, 1]) := by
    have limit : walkLimit = (2 ^ 64 - 1) + 1 := by decide
    rw [strcpy, limit, strcpyFrom]
    rfl
  obtain ⟨rfl, -⟩ := Prod.mk.inj (Except.ok.inj (copied.symm.trans ran))
  revert null
  decide

end B0s

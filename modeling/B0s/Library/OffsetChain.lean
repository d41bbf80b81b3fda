import Mathlib.Order.Bounds.Basic
import Mathlib.Tactic

/-
This file develops the chains of offsets in a block whose elements say where the next one lies, and what a walk along
such a chain keeps.
-/

namespace OffsetChain

/-- The elements that are reached from an offset. The chain is left at the end of the block, and behind an element
that ends it. -/
inductive Chain (next : Nat → Nat) (ends : Nat → Prop) (stop : Nat) : Nat → Nat → Prop
  | here {start : Nat} (inside : start < stop) : Chain next ends stop start start
  | there {start element : Nat} (inside : start < stop) (more : ¬ends start)
      (rest : Chain next ends stop (next start) element) : Chain next ends stop start element

variable {next : Nat → Nat} {ends : Nat → Prop} {stop start element : Nat}

theorem chain_iff : Chain next ends stop start element ↔
    start < stop ∧ (element = start ∨ ¬ends start ∧ Chain next ends stop (next start) element) := by
  constructor
  · intro chain
    cases chain with
    | here inside => exact ⟨inside, Or.inl rfl⟩
    | there inside more rest => exact ⟨inside, Or.inr ⟨more, rest⟩⟩
  · rintro ⟨inside, rfl | ⟨more, rest⟩⟩
    · exact Chain.here inside
    · exact Chain.there inside more rest

theorem Chain.start_lt (chain : Chain next ends stop start element) : start < stop :=
  (chain_iff.mp chain).1

theorem not_chain_of_le (outside : stop ≤ start) : ¬Chain next ends stop start element :=
  fun chain => Nat.not_lt_of_le outside chain.start_lt

theorem Chain.lt (chain : Chain next ends stop start element) : element < stop := by
  induction chain with
  | here inside => exact inside
  | there inside more rest ih => exact ih

/-- Where no element leads back, the elements lie behind the start. -/
theorem Chain.le (forward : ∀ element, element ≤ next element) (chain : Chain next ends stop start element) :
    start ≤ element := by
  induction chain with
  | here inside => exact le_rfl
  | there inside more rest ih => exact le_trans (forward _) ih

/-- A start that is not looked for is skipped. -/
theorem chain_skip {P : Nat → Prop} (inside : start < stop) (more : ¬ends start) (other : ¬P start) :
    Chain next ends stop start element ∧ P element ↔ Chain next ends stop (next start) element ∧ P element := by
  rw [chain_iff]
  constructor
  · rintro ⟨⟨-, rfl | ⟨-, rest⟩⟩, wanted⟩
    · exact absurd wanted other
    · exact ⟨rest, wanted⟩
  · rintro ⟨rest, wanted⟩
    exact ⟨⟨inside, Or.inr ⟨more, rest⟩⟩, wanted⟩

/-- A walk that overwrites what it keeps has kept the value of the last element that it looks for. -/
theorem foldl_keeps_last {S V : Type*} {step : S → Nat → S} {keep : S → V} {P : Nat → Prop} [DecidablePred P]
    {value : Nat → V}
    (kept : ∀ state element, keep (step state element) = if P element then value element else keep state) (state : S)
    (elements : List Nat) (sorted : elements.Pairwise (· < ·)) (some : ∃ element ∈ elements, P element) :
    ∃ last, IsGreatest {element | element ∈ elements ∧ P element} last ∧ keep (elements.foldl step state) = value last := by
  induction elements using List.reverseRecOn with
  | nil => simp at some
  | append_singleton front last ih =>
      obtain ⟨front_sorted, -, before⟩ := List.pairwise_append.mp sorted
      rw [List.foldl_append, List.foldl_cons, List.foldl_nil]
      by_cases wanted : P last
      · refine ⟨last, ⟨⟨by simp, wanted⟩, ?_⟩, (kept _ _).trans (if_pos wanted)⟩
        rintro element ⟨member, -⟩
        rcases List.mem_append.mp member with inside | here
        · exact Nat.le_of_lt (before element inside last (List.mem_singleton_self last))
        · exact Nat.le_of_eq (List.mem_singleton.mp here)
      · have same : ∀ element, element ∈ front ++ [last] ∧ P element ↔ element ∈ front ∧ P element := by
          intro element
          rw [List.mem_append, List.mem_singleton]
          constructor
          · rintro ⟨inside | rfl, holds⟩
            · exact ⟨inside, holds⟩
            · exact absurd holds wanted
          · rintro ⟨inside, holds⟩
            exact ⟨Or.inl inside, holds⟩
        obtain ⟨element, member, holds⟩ := some
        obtain ⟨inside, -⟩ := (same element).mp ⟨member, holds⟩
        obtain ⟨found, greatest, found_kept⟩ := ih front_sorted ⟨element, inside, holds⟩
        refine ⟨found, ?_, ((kept _ _).trans (if_neg wanted)).trans found_kept⟩
        rwa [show {element | element ∈ front ++ [last] ∧ P element} = {element | element ∈ front ∧ P element} from
          Set.ext same]

end OffsetChain

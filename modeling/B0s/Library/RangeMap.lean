import Mathlib.Order.Basic
import Mathlib.Data.List.Chain
import Mathlib.Tactic

/-
This file develops lists of flagged half-open ranges as partial maps.
-/

namespace RangeMap

variable {α F : Type*} [LinearOrder α]

/-- A half-open range carries one flag value. -/
structure Range (α F : Type*) where
  start : α
  stop : α
  flags : F
  deriving DecidableEq, Repr

/-- The range covers the points from its start up to its stop. -/
def Range.Contains (range : Range α F) (point : α) : Prop :=
  range.start ≤ point ∧ point < range.stop

instance (range : Range α F) (point : α) : Decidable (range.Contains point) :=
  inferInstanceAs (Decidable (_ ∧ _))

/-- The range meets a window when each one starts before the other stops. -/
def Range.Meets (range : Range α F) (start stop : α) : Prop :=
  range.start < stop ∧ start < range.stop

instance (range : Range α F) (start stop : α) : Decidable (range.Meets start stop) :=
  inferInstanceAs (Decidable (_ ∧ _))

/-- Two ranges join when the first stops where the second starts, with equal flags. -/
def Range.Joins (range other : Range α F) : Prop :=
  range.stop = other.start ∧ range.flags = other.flags

instance [DecidableEq F] (range other : Range α F) : Decidable (range.Joins other) :=
  inferInstanceAs (Decidable (_ ∧ _))

/-- The list gives `flags` to a point when one of its ranges does. -/
def Denotes (ranges : List (Range α F)) (point : α) (flags : F) : Prop :=
  ∃ range ∈ ranges, range.Contains point ∧ range.flags = flags

/-- A canonical list is ascending and disjoint, with no empty and no joinable ranges. -/
structure Canonical (ranges : List (Range α F)) : Prop where
  nonempty : ∀ range ∈ ranges, range.start < range.stop
  ascending : ranges.Pairwise fun range later => range.stop ≤ later.start
  unjoined : ranges.IsChain fun range later => ¬range.Joins later

theorem canonical_nil : Canonical ([] : List (Range α F)) :=
  ⟨by simp, List.Pairwise.nil, List.IsChain.nil⟩

/-- A concatenation is canonical when both halves are and the seam neither overlaps nor joins. -/
theorem canonical_append (first second : List (Range α F)) :
    Canonical (first ++ second) ↔ Canonical first ∧ Canonical second ∧
      (∀ range ∈ first, ∀ later ∈ second, range.stop ≤ later.start) ∧
      (∀ range, first.getLast? = some range → ∀ later, second.head? = some later →
        ¬range.Joins later) := by
  constructor
  · rintro ⟨nonempty, ascending, unjoined⟩
    rw [List.pairwise_append] at ascending
    rw [List.isChain_append] at unjoined
    refine ⟨⟨fun range member => nonempty range (by simp [member]), ascending.1, unjoined.1⟩,
      ⟨fun range member => nonempty range (by simp [member]), ascending.2.1, unjoined.2.1⟩,
      ascending.2.2, ?_⟩
    intro range last later head
    exact unjoined.2.2 range last later head
  · rintro ⟨left, right, between, seam⟩
    refine ⟨?_, ?_, ?_⟩
    · intro range member
      rcases List.mem_append.mp member with inside | inside
      · exact left.nonempty range inside
      · exact right.nonempty range inside
    · exact List.pairwise_append.mpr ⟨left.ascending, right.ascending, between⟩
    · exact List.isChain_append.mpr ⟨left.unjoined, right.unjoined, seam⟩

/-- One nonempty range is canonical by itself. -/
theorem canonical_singleton {range : Range α F} (nonempty : range.start < range.stop) :
    Canonical [range] :=
  ⟨by simpa using nonempty, List.pairwise_singleton _ _, List.IsChain.singleton _⟩

theorem denotes_append (first second : List (Range α F)) (point : α) (flags : F) :
    Denotes (first ++ second) point flags ↔
      Denotes first point flags ∨ Denotes second point flags := by
  simp only [Denotes, List.mem_append, or_and_right, exists_or]

@[simp] theorem denotes_nil (point : α) (flags : F) :
    ¬Denotes ([] : List (Range α F)) point flags := by
  simp [Denotes]

theorem denotes_cons (range : Range α F) (rest : List (Range α F)) (point : α) (flags : F) :
    Denotes (range :: rest) point flags ↔
      (range.Contains point ∧ range.flags = flags) ∨ Denotes rest point flags := by
  simp [Denotes]

/-- A point behind the first ranges and before the others has no flags. -/
theorem not_denotes_between {first second : List (Range α F)} {point : α}
    (behind : ∀ range ∈ first, range.stop ≤ point) (before : ∀ range ∈ second, point < range.start) (flags : F) :
    ¬Denotes (first ++ second) point flags := by
  rintro ⟨range, member, inside, -⟩
  rcases List.mem_append.mp member with early | late
  · exact absurd (inside.2.trans_le (behind range early)) (lt_irrefl _)
  · exact absurd ((before range late).trans_le inside.1) (lt_irrefl _)

/-- In an ascending list every range before `range` stops before it starts. -/
theorem Canonical.before_le {first second : List (Range α F)} {range other : Range α F}
    (canonical : Canonical (first ++ range :: second)) (member : other ∈ first) :
    other.stop ≤ range.start :=
  ((canonical_append _ _).mp canonical).2.2.1 other member range (by simp)

/-- In an ascending list every range after `range` starts after it stops. -/
theorem Canonical.le_after {first second : List (Range α F)} {range other : Range α F}
    (canonical : Canonical (first ++ range :: second)) (member : other ∈ second) :
    range.stop ≤ other.start :=
  (List.pairwise_cons.mp ((canonical_append _ _).mp canonical).2.1.ascending).1 other member

/-- A bound on the last stop of a canonical list bounds every stop. -/
theorem Canonical.stop_le_of_last {ranges : List (Range α F)} (canonical : Canonical ranges)
    {bound : α} (last : ∀ range, ranges.getLast? = some range → range.stop ≤ bound) :
    ∀ range ∈ ranges, range.stop ≤ bound := by
  rcases ranges.eq_nil_or_concat' with rfl | ⟨init, final, rfl⟩
  · simp
  · intro range member
    have finalBound := last final (by simp)
    rcases List.mem_append.mp member with inside | single
    · have finalNonempty := canonical.nonempty final (by simp)
      exact (canonical.before_le inside).trans (finalNonempty.le.trans finalBound)
    · obtain rfl := List.mem_singleton.mp single
      exact finalBound

/-- A bound on the first start of a canonical list bounds every start. -/
theorem Canonical.le_start_of_head {ranges : List (Range α F)} (canonical : Canonical ranges)
    {bound : α} (head : ∀ range, ranges.head? = some range → bound ≤ range.start) :
    ∀ range ∈ ranges, bound ≤ range.start := by
  cases ranges with
  | nil => simp
  | cons front rest =>
      intro range member
      have frontBound := head front rfl
      rcases List.mem_cons.mp member with rfl | inside
      · exact frontBound
      · have frontNonempty := canonical.nonempty front (by simp)
        have order := (List.pairwise_cons.mp canonical.ascending).1 range inside
        exact frontBound.trans (frontNonempty.le.trans order)

/-- The range of a canonical list that contains a point is the only one that does. -/
theorem Canonical.eq_of_contains {first second : List (Range α F)} {range other : Range α F}
    (canonical : Canonical (first ++ range :: second)) (member : other ∈ first ++ range :: second)
    {point : α} (inside : range.Contains point) (also : other.Contains point) : other = range := by
  rw [List.mem_append, List.mem_cons] at member
  rcases member with before | same | after
  · have order := canonical.before_le before
    exact absurd (also.2.trans_le (order.trans inside.1)) (lt_irrefl _)
  · exact same
  · have order := canonical.le_after after
    exact absurd (inside.2.trans_le (order.trans also.1)) (lt_irrefl _)

/-- A canonical list does not continue a range behind its end. -/
theorem Canonical.stop_vacant {ranges : List (Range α F)} (canonical : Canonical ranges)
    {range : Range α F} (member : range ∈ ranges) : ¬Denotes ranges range.stop range.flags := by
  obtain ⟨first, second, rfl⟩ := List.append_of_mem member
  rintro ⟨other, listed, inside, flags⟩
  have nonempty := canonical.nonempty range member
  have parts := (canonical_append _ _).mp canonical
  rw [List.mem_append, List.mem_cons] at listed
  rcases listed with before | rfl | after
  · have order := canonical.before_le before
    exact absurd (inside.2.trans_le (order.trans nonempty.le)) (lt_irrefl _)
  · exact absurd inside.2 (lt_irrefl _)
  · cases second with
    | nil => cases after
    | cons head rest =>
        have chain := List.isChain_cons_cons.mp parts.2.1.unjoined
        have order := canonical.le_after after
        rcases List.mem_cons.mp after with rfl | later
        · exact chain.1 ⟨le_antisymm order inside.1, flags.symm⟩
        · have tail := (List.pairwise_cons.mp parts.2.1.ascending).2
          have behind := (List.pairwise_cons.mp tail).1 other later
          have headOrder := canonical.le_after (List.mem_cons_self : head ∈ head :: rest)
          have headNonempty := canonical.nonempty head (by simp)
          exact absurd (headNonempty.trans_le (behind.trans (inside.1.trans headOrder))) (lt_irrefl _)

/-- A window meets no range exactly when the list denotes none of its points. -/
theorem Canonical.vacant_iff {ranges : List (Range α F)} (canonical : Canonical ranges)
    {start stop : α} (nonempty : start < stop) :
    (∀ range ∈ ranges, ¬range.Meets start stop) ↔
      ∀ point, start ≤ point → point < stop → ∀ flags, ¬Denotes ranges point flags := by
  constructor
  · rintro vacant point lower upper flags ⟨range, member, inside, -⟩
    exact vacant range member ⟨inside.1.trans_lt upper, lower.trans_lt inside.2⟩
  · intro empty range member meets
    have rangeNonempty := canonical.nonempty range member
    apply empty (max range.start start) (le_max_right _ _) (max_lt meets.1 nonempty) range.flags
    exact ⟨range, member, ⟨le_max_left _ _, max_lt rangeNonempty meets.2⟩, rfl⟩

/-- A canonical list over the naturals has at most as many ranges as points below its bound. -/
theorem Canonical.length_le {ranges : List (Range Nat F)} (canonical : Canonical ranges)
    {bound : Nat} (bounded : ∀ point flags, Denotes ranges point flags → point < bound) :
    ranges.length ≤ bound := by
  suffices counted : ∀ low, (∀ range ∈ ranges, low ≤ range.start) →
      ranges = [] ∨ ranges.length + low ≤ bound by
    rcases counted 0 (by simp) with rfl | room
    · simp
    · exact room
  induction ranges with
  | nil => simp
  | cons head rest ih =>
      intro low above
      right
      have parts := (canonical_append [head] rest).mp canonical
      have headNonempty := canonical.nonempty head (by simp)
      have headAbove := above head (by simp)
      have headBound := bounded (head.stop - 1) head.flags
        ⟨head, by simp, ⟨by omega, by omega⟩, rfl⟩
      have tail := ih parts.2.1 (fun point flags denoted =>
        bounded point flags ((denotes_cons _ _ _ _).mpr (Or.inr denoted))) head.stop
        fun range member => parts.2.2.1 head (by simp) range member
      rcases tail with rfl | room
      · simp only [List.length_cons, List.length_nil]
        omega
      · simp only [List.length_cons]
        omega

/-- Carving a window out of a range keeps the pieces on both of its sides. -/
def carve (range : Range α F) (start stop : α) : List (Range α F) :=
  (if range.start < start then [{ range with stop := start }] else []) ++
    (if stop < range.stop then [{ range with start := stop }] else [])

/-- Carving a window out of one range keeps a canonical list canonical. -/
theorem carve_canonical {first second : List (Range α F)} {range : Range α F} {start stop : α}
    (canonical : Canonical (first ++ range :: second)) (lower : range.start ≤ start)
    (nonempty : start < stop) (upper : stop ≤ range.stop) :
    Canonical (first ++ carve range start stop ++ second) := by
  have parts := (canonical_append _ _).mp canonical
  have tail := (canonical_append [range] second).mp parts.2.1
  have pieces : Canonical (carve range start stop) := by
    unfold carve
    split_ifs with leftSide rightSide rightSide
    · refine (canonical_append _ _).mpr
        ⟨canonical_singleton leftSide, canonical_singleton rightSide, ?_, ?_⟩
      · simpa using nonempty.le
      · rintro piece final later head ⟨meet, -⟩
        obtain rfl : _ = piece := by simpa using final
        obtain rfl : _ = later := by simpa using head
        exact nonempty.ne meet
    · exact canonical_singleton leftSide
    · exact canonical_singleton rightSide
    · exact canonical_nil
  have inside : ∀ piece ∈ carve range start stop,
      range.start ≤ piece.start ∧ piece.stop ≤ range.stop ∧ piece.flags = range.flags := by
    intro piece member
    unfold carve at member
    rcases List.mem_append.mp member with member | member
    · split_ifs at member with side
      · obtain rfl := List.mem_singleton.mp member
        exact ⟨le_rfl, nonempty.le.trans upper, rfl⟩
      · simp at member
    · split_ifs at member with side
      · obtain rfl := List.mem_singleton.mp member
        exact ⟨lower.trans nonempty.le, le_rfl, rfl⟩
      · simp at member
  have rightEnd : Canonical (carve range start stop ++ second) := by
    refine (canonical_append _ _).mpr ⟨pieces, tail.2.1, ?_, ?_⟩
    · intro piece member later follows
      exact (inside piece member).2.1.trans (tail.2.2.1 range (by simp) later follows)
    · rintro piece final later head ⟨meet, same⟩
      have member := List.mem_of_getLast? final
      have follows := List.mem_of_mem_head? head
      have bound := tail.2.2.1 range (by simp) later follows
      have facts := inside piece member
      apply tail.2.2.2 range (by simp) later head
      exact ⟨le_antisymm bound (meet ▸ facts.2.1), facts.2.2.symm.trans same⟩
  rw [List.append_assoc]
  refine (canonical_append _ _).mpr ⟨parts.1, rightEnd, ?_, ?_⟩
  · intro before member later follows
    rcases List.mem_append.mp follows with follows | follows
    · exact (parts.2.2.1 before member range (by simp)).trans (inside later follows).1
    · exact parts.2.2.1 before member later (by simp [follows])
  · rintro before final later head ⟨meet, same⟩
    have member := List.mem_of_getLast? final
    have bound := parts.2.2.1 before member range (by simp)
    rcases List.mem_append.mp (List.mem_of_mem_head? head) with follows | follows
    · have facts := inside later follows
      apply parts.2.2.2 before final range (by simp)
      exact ⟨le_antisymm bound (meet ▸ facts.1), same.trans facts.2.2⟩
    · have apart := tail.2.2.1 range (by simp) later follows
      have rangeNonempty := canonical.nonempty range (by simp)
      exact absurd (meet ▸ bound) (not_le.mpr (rangeNonempty.trans_le apart))

/-- Carving a window removes exactly its points from the denotation. -/
theorem carve_denotes {first second : List (Range α F)} {range : Range α F} {start stop : α}
    (canonical : Canonical (first ++ range :: second)) (lower : range.start ≤ start)
    (nonempty : start < stop) (upper : stop ≤ range.stop) (point : α) (flags : F) :
    Denotes (first ++ carve range start stop ++ second) point flags ↔
      Denotes (first ++ range :: second) point flags ∧ ¬(start ≤ point ∧ point < stop) := by
  have away : ∀ other ∈ first ++ second, other.Contains point → ¬(start ≤ point ∧ point < stop) := by
    rintro other member ⟨otherLower, otherUpper⟩ ⟨inLower, inUpper⟩
    rcases List.mem_append.mp member with member | member
    · have bound := canonical.before_le member
      exact absurd (otherUpper.trans_le (bound.trans (lower.trans inLower))) (lt_irrefl _)
    · have bound := canonical.le_after member
      exact absurd (inUpper.trans_le (upper.trans (bound.trans otherLower))) (lt_irrefl _)
  have pieces : Denotes (carve range start stop) point flags ↔
      (range.Contains point ∧ range.flags = flags) ∧ ¬(start ≤ point ∧ point < stop) := by
    unfold carve Denotes Range.Contains
    constructor
    · rintro ⟨piece, member, ⟨pieceLower, pieceUpper⟩, rfl⟩
      rcases List.mem_append.mp member with member | member
      · split_ifs at member with side
        · obtain rfl := List.mem_singleton.mp member
          exact ⟨⟨⟨pieceLower, pieceUpper.trans (nonempty.trans_le upper)⟩, rfl⟩,
            fun window => absurd (pieceUpper.trans_le window.1) (lt_irrefl _)⟩
        · simp at member
      · split_ifs at member with side
        · obtain rfl := List.mem_singleton.mp member
          exact ⟨⟨⟨(lower.trans nonempty.le).trans pieceLower, pieceUpper⟩, rfl⟩,
            fun window => absurd (window.2.trans_le pieceLower) (lt_irrefl _)⟩
        · simp at member
    · rintro ⟨⟨⟨pointLower, pointUpper⟩, rfl⟩, outside⟩
      rcases lt_or_ge point start with left | right
      · refine ⟨{ range with stop := start }, ?_, ⟨pointLower, left⟩, rfl⟩
        rw [if_pos (pointLower.trans_lt left)]
        simp
      · have beyond : stop ≤ point := not_lt.mp fun inside => outside ⟨right, inside⟩
        refine ⟨{ range with start := stop }, ?_, ⟨beyond, pointUpper⟩, rfl⟩
        rw [if_pos (beyond.trans_lt pointUpper)]
        simp
  rw [denotes_append, denotes_append, denotes_append, denotes_cons, pieces]
  constructor
  · rintro ((left | middle) | right)
    · obtain ⟨other, member, inside, same⟩ := left
      exact ⟨Or.inl ⟨other, member, inside, same⟩, away other (by simp [member]) inside⟩
    · exact ⟨Or.inr (Or.inl middle.1), middle.2⟩
    · obtain ⟨other, member, inside, same⟩ := right
      exact ⟨Or.inr (Or.inr ⟨other, member, inside, same⟩), away other (by simp [member]) inside⟩
  · rintro ⟨left | middle | right, outside⟩
    · exact Or.inl (Or.inl left)
    · exact Or.inl (Or.inr ⟨middle, outside⟩)
    · exact Or.inr right

variable [DecidableEq F]

/-- The last range before the new one absorbs it when the two join. -/
def joinLeft (first : List (Range α F)) (range : Range α F) :
    List (Range α F) × Range α F :=
  match first.getLast? with
  | none => (first, range)
  | some last => if last.Joins range then (first.dropLast, { range with start := last.start })
      else (first, range)

/-- The first range after the new one absorbs it when the two join. -/
def joinRight (range : Range α F) (second : List (Range α F)) :
    Range α F × List (Range α F) :=
  match second with
  | [] => (range, second)
  | head :: rest => if range.Joins head then ({ range with stop := head.stop }, rest)
      else (range, second)

/-- A new range enters between two parts of a list and joins its neighbours. -/
def insertBetween (first second : List (Range α F)) (range : Range α F) : List (Range α F) :=
  let left := joinLeft first range
  let right := joinRight left.2 second
  left.1 ++ right.1 :: right.2

/-- This is the range that holds the new one after the insertion. -/
def joined (first second : List (Range α F)) (range : Range α F) : Range α F :=
  (joinRight (joinLeft first range).2 second).1

/-- A range that joins its left neighbour takes over the start of that neighbour. -/
theorem joinLeft_joins {init : List (Range α F)} {last range : Range α F}
    (joins : last.Joins range) :
    joinLeft (init ++ [last]) range = (init, { range with start := last.start }) := by
  simp [joinLeft, joins]

/-- A range that joins no left neighbour stays as it is. -/
theorem joinLeft_apart {first : List (Range α F)} {range : Range α F}
    (apart : ∀ last, first.getLast? = some last → ¬last.Joins range) :
    joinLeft first range = (first, range) := by
  unfold joinLeft
  cases final : first.getLast? with
  | none => rfl
  | some last => exact if_neg (apart last final)

/-- A range that joins its right neighbour takes over the stop of that neighbour. -/
theorem joinRight_joins {rest : List (Range α F)} {head range : Range α F}
    (joins : range.Joins head) :
    joinRight range (head :: rest) = ({ range with stop := head.stop }, rest) := by
  simp [joinRight, joins]

/-- A range that joins no right neighbour stays as it is. -/
theorem joinRight_apart {second : List (Range α F)} {range : Range α F}
    (apart : ∀ head, second.head? = some head → ¬range.Joins head) :
    joinRight range second = (range, second) := by
  cases second with
  | nil => rfl
  | cons head rest => exact if_neg (apart head rfl)

/-- A range that joins on both sides closes the gap between two ranges. -/
theorem insertBetween_both (init rest : List (Range α F)) {last head range : Range α F}
    (left : last.Joins range) (right : range.Joins head) :
    joined (init ++ [last]) (head :: rest) range = ⟨last.start, head.stop, range.flags⟩ ∧
      insertBetween (init ++ [last]) (head :: rest) range =
        init ++ ⟨last.start, head.stop, range.flags⟩ :: rest := by
  have moved : Range.Joins { range with start := last.start } head := right
  simp only [joined, insertBetween, joinLeft_joins left, joinRight_joins moved, and_self]

/-- A range that joins only its left neighbour extends it. -/
theorem insertBetween_left (init : List (Range α F)) {second : List (Range α F)}
    {last range : Range α F}
    (left : last.Joins range) (apart : ∀ head, second.head? = some head → ¬range.Joins head) :
    joined (init ++ [last]) second range = { range with start := last.start } ∧
      insertBetween (init ++ [last]) second range =
        init ++ { range with start := last.start } :: second := by
  have moved : ∀ head, second.head? = some head →
      ¬Range.Joins { range with start := last.start } head := apart
  simp only [joined, insertBetween, joinLeft_joins left, joinRight_apart moved, and_self]

/-- A range that joins only its right neighbour extends it. -/
theorem insertBetween_right {first : List (Range α F)} (rest : List (Range α F))
    {head range : Range α F}
    (apart : ∀ last, first.getLast? = some last → ¬last.Joins range) (right : range.Joins head) :
    joined first (head :: rest) range = { range with stop := head.stop } ∧
      insertBetween first (head :: rest) range =
        first ++ { range with stop := head.stop } :: rest := by
  simp only [joined, insertBetween, joinLeft_apart apart, joinRight_joins right, and_self]

/-- A range that joins neither neighbour becomes a new entry. -/
theorem insertBetween_apart {first second : List (Range α F)} {range : Range α F}
    (left : ∀ last, first.getLast? = some last → ¬last.Joins range)
    (right : ∀ head, second.head? = some head → ¬range.Joins head) :
    joined first second range = range ∧
      insertBetween first second range = first ++ range :: second := by
  simp only [joined, insertBetween, joinLeft_apart left, joinRight_apart right, and_self]

/-- Joining on the left keeps the canonical order and moves only the start of the range. -/
theorem joinLeft_canonical {first : List (Range α F)} {range : Range α F}
    (canonical : Canonical first) (nonempty : range.start < range.stop)
    (before : ∀ other ∈ first, other.stop ≤ range.start) :
    Canonical ((joinLeft first range).1 ++ [(joinLeft first range).2]) ∧
      (joinLeft first range).2.stop = range.stop ∧ (joinLeft first range).2.flags = range.flags := by
  rcases first.eq_nil_or_concat' with rfl | ⟨init, last, rfl⟩
  · exact ⟨canonical_singleton nonempty, rfl, rfl⟩
  · have parts := (canonical_append _ _).mp canonical
    have lastNonempty := canonical.nonempty last (by simp)
    have seam := before last (by simp)
    simp only [joinLeft, List.getLast?_append, List.getLast?_singleton, Option.some_or]
    split_ifs with joins
    · simp only [List.dropLast_concat, and_self, and_true]
      refine (canonical_append _ _).mpr ⟨parts.1,
        canonical_singleton (lastNonempty.trans_le (seam.trans nonempty.le)), ?_, ?_⟩
      · intro other member later single
        obtain rfl := List.mem_singleton.mp single
        exact parts.2.2.1 other member last (by simp)
      · intro other final later head
        obtain rfl : _ = later := by simpa using head
        have apart := parts.2.2.2 other final last (by simp)
        simpa only [Range.Joins, joins.2] using apart
    · refine ⟨(canonical_append _ _).mpr ⟨canonical, canonical_singleton nonempty, ?_, ?_⟩, rfl, rfl⟩
      · intro other member later single
        obtain rfl := List.mem_singleton.mp single
        exact before other member
      · intro other final later head
        obtain rfl : range = later := by simpa using head
        obtain rfl : last = other := by simpa using final
        exact joins

/-- Joining on the left keeps the denotation of the list and the range. -/
theorem joinLeft_denotes {first : List (Range α F)} {range : Range α F}
    (canonical : Canonical first) (nonempty : range.start < range.stop) (point : α) (flags : F) :
    Denotes ((joinLeft first range).1 ++ [(joinLeft first range).2]) point flags ↔
      Denotes (first ++ [range]) point flags := by
  rcases first.eq_nil_or_concat' with rfl | ⟨init, last, rfl⟩
  · rfl
  · have lastNonempty := canonical.nonempty last (by simp)
    simp only [joinLeft, List.getLast?_append, List.getLast?_singleton, Option.some_or]
    split_ifs with joins
    · rw [List.dropLast_concat, List.append_assoc, denotes_append, denotes_append]
      apply or_congr_right
      simp only [List.singleton_append, denotes_cons, denotes_nil, or_false, Range.Contains]
      obtain ⟨meet, same⟩ := joins
      rw [← same, ← or_and_right]
      apply and_congr_left
      intro _
      constructor
      · rintro ⟨lower, upper⟩
        rcases lt_or_ge point last.stop with inside | outside
        · exact Or.inl ⟨lower, inside⟩
        · exact Or.inr ⟨meet ▸ outside, upper⟩
      · rintro (⟨lower, upper⟩ | ⟨lower, upper⟩)
        · exact ⟨lower, upper.trans (meet ▸ nonempty)⟩
        · exact ⟨lastNonempty.le.trans (meet ▸ lower), upper⟩
    · rfl

/-- Joining on the right keeps the canonical order and moves only the stop of the range. -/
theorem joinRight_canonical {second : List (Range α F)} {range : Range α F}
    (canonical : Canonical second) (nonempty : range.start < range.stop)
    (after : ∀ other ∈ second, range.stop ≤ other.start) :
    Canonical ((joinRight range second).1 :: (joinRight range second).2) ∧
      (joinRight range second).1.start = range.start ∧
      (joinRight range second).1.flags = range.flags := by
  cases second with
  | nil => exact ⟨canonical_singleton nonempty, rfl, rfl⟩
  | cons head rest =>
      have parts := (canonical_append [head] rest).mp canonical
      have headNonempty := canonical.nonempty head (by simp)
      have seam := after head (by simp)
      simp only [joinRight]
      split_ifs with joins
      · refine ⟨(canonical_append [_] _).mpr ⟨canonical_singleton ?_, parts.2.1, ?_, ?_⟩, rfl, rfl⟩
        · exact nonempty.trans_le (seam.trans headNonempty.le)
        · intro other single later member
          obtain rfl := List.mem_singleton.mp single
          exact parts.2.2.1 head (by simp) later member
        · intro other final later next
          obtain rfl : _ = other := by simpa using final
          have apart := parts.2.2.2 head (by simp) later next
          simpa only [Range.Joins, joins.2] using apart
      · refine ⟨(canonical_append [range] _).mpr ⟨canonical_singleton nonempty, canonical, ?_, ?_⟩,
          rfl, rfl⟩
        · intro other single later member
          obtain rfl := List.mem_singleton.mp single
          exact after later member
        · intro other final later next
          obtain rfl : range = other := by simpa using final
          obtain rfl : head = later := by simpa using next
          exact joins

/-- Joining on the right keeps the denotation of the range and the list. -/
theorem joinRight_denotes {second : List (Range α F)} {range : Range α F}
    (canonical : Canonical second) (nonempty : range.start < range.stop) (point : α) (flags : F) :
    Denotes ((joinRight range second).1 :: (joinRight range second).2) point flags ↔
      Denotes (range :: second) point flags := by
  cases second with
  | nil => rfl
  | cons head rest =>
      have headNonempty := canonical.nonempty head (by simp)
      simp only [joinRight]
      split_ifs with joins
      · obtain ⟨meet, same⟩ := joins
        simp only [denotes_cons, Range.Contains]
        rw [← same, ← or_assoc, ← or_and_right]
        apply or_congr_left
        apply and_congr_left
        intro _
        constructor
        · rintro ⟨lower, upper⟩
          rcases lt_or_ge point range.stop with inside | outside
          · exact Or.inl ⟨lower, inside⟩
          · exact Or.inr ⟨meet ▸ outside, upper⟩
        · rintro (⟨lower, upper⟩ | ⟨lower, upper⟩)
          · exact ⟨lower, upper.trans (meet ▸ headNonempty)⟩
          · exact ⟨nonempty.le.trans (meet ▸ lower), upper⟩
      · rfl

/-- Inserting a range that fits between two parts gives a canonical list. -/
theorem insertBetween_canonical {first second : List (Range α F)} {range : Range α F}
    (canonical : Canonical (first ++ second)) (nonempty : range.start < range.stop)
    (before : ∀ other ∈ first, other.stop ≤ range.start)
    (after : ∀ other ∈ second, range.stop ≤ other.start) :
    Canonical (insertBetween first second range) := by
  have parts := (canonical_append _ _).mp canonical
  have left := joinLeft_canonical parts.1 nonempty before
  have leftNonempty : (joinLeft first range).2.start < (joinLeft first range).2.stop :=
    left.1.nonempty _ (by simp)
  have right := joinRight_canonical parts.2.1 leftNonempty (by rw [left.2.1]; exact after)
  have kept : ∀ other ∈ (joinLeft first range).1, other ∈ first := by
    intro other member
    simp only [joinLeft] at member
    split at member
    · exact member
    · split_ifs at member
      · exact List.mem_of_mem_dropLast member
      · exact member
  have keptRight : ∀ other ∈ (joinRight (joinLeft first range).2 second).2, other ∈ second := by
    intro other member
    cases second with
    | nil => exact member
    | cons head rest =>
        simp only [joinRight] at member
        split_ifs at member
        · exact List.mem_cons_of_mem _ member
        · exact member
  have leftParts := (canonical_append _ _).mp left.1
  refine (canonical_append _ _).mpr ⟨leftParts.1, right.1, ?_, ?_⟩
  · intro other member later follows
    rcases List.mem_cons.mp follows with rfl | follows
    · rw [right.2.1]
      exact leftParts.2.2.1 other member _ (by simp)
    · exact parts.2.2.1 other (kept other member) later (keptRight later follows)
  · intro other final later head
    obtain rfl : _ = later := by simpa using head
    have apart := leftParts.2.2.2 other final _ rfl
    simpa only [Range.Joins, right.2.1, right.2.2] using apart

/-- Inserting a range adds exactly its own points to the denotation. -/
theorem insertBetween_denotes {first second : List (Range α F)} {range : Range α F}
    (canonical : Canonical (first ++ second)) (nonempty : range.start < range.stop)
    (before : ∀ other ∈ first, other.stop ≤ range.start) (point : α) (flags : F) :
    Denotes (insertBetween first second range) point flags ↔
      (range.Contains point ∧ range.flags = flags) ∨ Denotes (first ++ second) point flags := by
  have parts := (canonical_append _ _).mp canonical
  have left := joinLeft_canonical parts.1 nonempty before
  have leftNonempty : (joinLeft first range).2.start < (joinLeft first range).2.stop :=
    left.1.nonempty _ (by simp)
  have one := joinLeft_denotes parts.1 nonempty point flags
  have two := joinRight_denotes parts.2.1 leftNonempty point flags
  rw [insertBetween, denotes_append, two, denotes_cons, denotes_append]
  simp only [denotes_append, denotes_cons, denotes_nil, or_false] at one
  rw [← or_assoc, one]
  tauto

/-- The range enters the list at a place where it fits, and `result` holds it afterwards. -/
def Inserts (before : List (Range α F)) (range : Range α F) (after : List (Range α F))
    (result : Range α F) : Prop :=
  ∃ first second, before = first ++ second ∧ (∀ other ∈ first, other.stop ≤ range.start) ∧
    (∀ other ∈ second, range.stop ≤ other.start) ∧ after = insertBetween first second range ∧
    result = joined first second range

/-- An insertion keeps the list canonical. -/
theorem Inserts.canonical {before after : List (Range α F)} {range result : Range α F}
    (inserts : Inserts before range after result) (canonical : Canonical before)
    (nonempty : range.start < range.stop) : Canonical after := by
  obtain ⟨first, second, rfl, left, right, rfl, -⟩ := inserts
  exact insertBetween_canonical canonical nonempty left right

/-- An insertion adds exactly the points of the range. -/
theorem Inserts.denotes {before after : List (Range α F)} {range result : Range α F}
    (inserts : Inserts before range after result) (canonical : Canonical before)
    (nonempty : range.start < range.stop) (point : α) (flags : F) :
    Denotes after point flags ↔
      (range.Contains point ∧ range.flags = flags) ∨ Denotes before point flags := by
  obtain ⟨first, second, rfl, left, -, rfl, -⟩ := inserts
  exact insertBetween_denotes canonical nonempty left point flags

/-- A range that continues a canonical list goes to its end. -/
theorem Inserts.concat {before after : List (Range α F)} {range result : Range α F}
    (inserts : Inserts before range after result) (canonical : Canonical (before ++ [range])) :
    after = before ++ [range] := by
  obtain ⟨first, second, rfl, -, right, rfl, -⟩ := inserts
  have parts := (canonical_append _ _).mp canonical
  have none : second = [] := by
    cases second with
    | nil => rfl
    | cons head rest =>
        have behind := right head (by simp)
        have ahead := parts.2.2.1 head (by simp) range (by simp)
        have nonempty := parts.1.nonempty head (by simp)
        have nonempty' := parts.2.1.nonempty range (by simp)
        exact absurd (behind.trans_lt nonempty) (not_lt.mpr (ahead.trans nonempty'.le))
  subst none
  have left : ∀ last, first.getLast? = some last → ¬last.Joins range :=
    fun last final => parts.2.2.2 last (by simpa using final) range rfl
  have shape : _ ∧ insertBetween first [] range = first ++ [range] := insertBetween_apart left (by simp)
  rw [shape.2, List.append_nil]

/-- The range that holds the new one is listed afterwards. -/
theorem Inserts.mem {before after : List (Range α F)} {range result : Range α F}
    (inserts : Inserts before range after result) : result ∈ after := by
  obtain ⟨first, second, -, -, -, rfl, rfl⟩ := inserts
  simp [insertBetween, joined]

/-- The range that holds the new one starts with it or before it. -/
theorem Inserts.start_le {before after : List (Range α F)} {range result : Range α F}
    (inserts : Inserts before range after result) (canonical : Canonical before) :
    result.start ≤ range.start := by
  obtain ⟨first, second, rfl, left, -, -, rfl⟩ := inserts
  have start : (joined first second range).start = (joinLeft first range).2.start := by
    unfold joined joinRight
    cases second with
    | nil => rfl
    | cons head rest =>
        simp only
        split_ifs <;> rfl
  rw [start]
  rcases first.eq_nil_or_concat' with rfl | ⟨init, last, rfl⟩
  · exact le_rfl
  · have lastNonempty := canonical.nonempty last (by simp)
    have lastBefore := left last (by simp)
    unfold joinLeft
    simp only [List.getLast?_concat]
    split_ifs
    · exact lastNonempty.le.trans lastBefore
    · exact le_rfl

/-- Joining on the left keeps the stop and the flags of the range. -/
theorem joinLeft_stop (first : List (Range α F)) (range : Range α F) :
    (joinLeft first range).2.stop = range.stop ∧ (joinLeft first range).2.flags = range.flags := by
  unfold joinLeft
  cases first.getLast? with
  | none => exact ⟨rfl, rfl⟩
  | some last =>
      simp only
      split_ifs <;> exact ⟨rfl, rfl⟩

/-- The range that holds the new one has its flags. -/
theorem Inserts.flags_eq {before after : List (Range α F)} {range result : Range α F}
    (inserts : Inserts before range after result) : result.flags = range.flags := by
  obtain ⟨first, second, -, -, -, -, rfl⟩ := inserts
  have flags := (joinLeft_stop first range).2
  unfold joined joinRight
  cases second with
  | nil => exact flags
  | cons head rest =>
      simp only
      split_ifs <;> exact flags

/-- The range that holds the new one ends with it or with a range that joins it. -/
theorem Inserts.stop_cases {before after : List (Range α F)} {range result : Range α F}
    (inserts : Inserts before range after result) :
    result.stop = range.stop ∨ ∃ other ∈ before, range.Joins other ∧ other.stop = result.stop := by
  obtain ⟨first, second, rfl, -, -, -, rfl⟩ := inserts
  obtain ⟨stop, flags⟩ := joinLeft_stop first range
  unfold joined joinRight
  cases second with
  | nil => exact Or.inl stop
  | cons head rest =>
      simp only
      split_ifs with joins
      · exact Or.inr ⟨head, by simp, ⟨stop.symm.trans joins.1, flags.symm.trans joins.2⟩, rfl⟩
      · exact Or.inl stop

/-- The range that holds the new one ends with it exactly when no listed range joins it. -/
theorem Inserts.stop_eq_iff {before after : List (Range α F)} {range result : Range α F}
    (inserts : Inserts before range after result) (canonical : Canonical before)
    (nonempty : range.start < range.stop) : result.stop = range.stop ↔ ∀ other ∈ before, ¬range.Joins other := by
  constructor
  · intro same other member joins
    have otherNonempty := canonical.nonempty other member
    have behind : Denotes after result.stop result.flags := by
      rw [same, inserts.flags_eq]
      apply (inserts.denotes canonical nonempty _ _).mpr
      exact Or.inr ⟨other, member, ⟨joins.1.ge, joins.1 ▸ otherNonempty⟩, joins.2.symm⟩
    exact (inserts.canonical canonical nonempty).stop_vacant inserts.mem behind
  · intro apart
    rcases inserts.stop_cases with same | ⟨other, member, joins, -⟩
    · exact same
    · exact absurd joins (apart other member)

end RangeMap

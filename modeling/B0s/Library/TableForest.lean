import Mathlib.Data.Option.Basic
import Mathlib.Tactic

/-
This file studies forests of lookup tables that share one memory.
A table maps an index to the table below it, and a path of indices descends from a root.
-/

namespace TableForest

variable {κ ι α : Type}

/-- The descent follows one index of the path in each table. -/
def descend (child : α → ι → Option α) : α → List ι → Option α
  | table, [] => some table
  | table, index :: path => (child table index).bind fun below => descend child below path

@[simp] theorem descend_nil (child : α → ι → Option α) (table : α) :
    descend child table [] = some table := rfl

theorem descend_append (child : α → ι → Option α) (table : α) (first second : List ι) :
    descend child table (first ++ second) =
      (descend child table first).bind fun below => descend child below second := by
  induction first generalizing table with
  | nil => rfl
  | cons index path ih =>
      simp only [List.cons_append, descend, ih, Option.bind_assoc]

theorem descend_concat (child : α → ι → Option α) (table : α) (path : List ι) (index : ι) :
    descend child table (path ++ [index]) =
      (descend child table path).bind fun below => child below index := by
  rw [descend_append]
  cases descend child table path with
  | none => rfl
  | some below => simp [descend]

/-- Each table within the depth belongs to one root and one path. -/
structure Forest (child : α → ι → Option α) (member : κ → Prop) (root : κ → α) (depth : Nat) :
    Prop where
  unique : ∀ {key key' : κ} {path path' : List ι} {table : α}, member key → member key' →
    path.length ≤ depth → path'.length ≤ depth →
    descend child (root key) path = some table → descend child (root key') path' = some table →
    key = key' ∧ path = path'

/-- Some member of the forest reaches the table within the depth. -/
def Reached (child : α → ι → Option α) (member : κ → Prop) (root : κ → α) (depth : Nat)
    (table : α) : Prop :=
  ∃ key path, member key ∧ path.length ≤ depth ∧ descend child (root key) path = some table

section Transport
variable {child child' : α → ι → Option α} {member : κ → Prop} {root : κ → α} {depth : Nat}

/-- A descent depends only on the tables above its last step. -/
theorem descend_congr {key : κ} {path : List ι} (belongs : member key)
    (short : path.length ≤ depth)
    (same : ∀ {key path table}, member key → path.length < depth →
      descend child (root key) path = some table → ∀ index, child' table index = child table index) :
    descend child' (root key) path = descend child (root key) path := by
  induction path using List.reverseRecOn with
  | nil => rfl
  | append_singleton path index ih =>
      rw [List.length_append, List.length_singleton] at short
      rw [descend_concat, descend_concat, ih (by omega)]
      cases reached : descend child (root key) path with
      | none => rfl
      | some table => exact same belongs (by omega) reached index

/-- A change below the depth keeps the forest. -/
theorem Forest.transport (forest : Forest child member root depth)
    (same : ∀ {key path table}, member key → path.length < depth →
      descend child (root key) path = some table → ∀ index, child' table index = child table index) :
    Forest child' member root depth where
  unique belongs belongs' short short' reached reached' := by
    rw [descend_congr belongs short same] at reached
    rw [descend_congr belongs' short' same] at reached'
    exact forest.unique belongs belongs' short short' reached reached'

end Transport

section Graft
variable {child child' : α → ι → Option α} {member : κ → Prop} {root : κ → α} {depth : Nat}
  {owner : κ} {stem : List ι} {table new : α} {slot : ι}

/-- A graft hangs one empty table into an empty slot of a reached table. -/
structure Graft (child child' : α → ι → Option α) (member : κ → Prop) (root : κ → α) (depth : Nat)
    (owner : κ) (stem : List ι) (table : α) (slot : ι) (new : α) : Prop where
  belongs : member owner
  short : stem.length < depth
  reached : descend child (root owner) stem = some table
  vacant : child table slot = none
  fresh : ¬Reached child member root depth new
  hangs : child' table slot = some new
  empty : ∀ index, child' new index = none
  same : ∀ other, Reached child member root depth other → other ≠ new → ∀ index,
    ¬(other = table ∧ index = slot) → child' other index = child other index

/-- A graft keeps every descent that does not pass its slot. -/
theorem Graft.descend_other
    (graft : Graft child child' member root depth owner stem table slot new)
    (forest : Forest child member root depth) {key : κ} {path : List ι} (belongs : member key)
    (bound : path.length ≤ depth) (avoids : ¬(key = owner ∧ stem ++ [slot] <+: path)) :
    descend child' (root key) path = descend child (root key) path := by
  induction path using List.reverseRecOn with
  | nil => rfl
  | append_singleton path index ih =>
      rw [List.length_append, List.length_singleton] at bound
      have avoidsPath : ¬(key = owner ∧ stem ++ [slot] <+: path) := by
        intro passes
        exact avoids ⟨passes.1, passes.2.trans (List.prefix_append _ _)⟩
      rw [descend_concat, descend_concat, ih (by omega) avoidsPath]
      cases reached : descend child (root key) path with
      | none => rfl
      | some other =>
          have old : other ≠ new := by
            intro same
            exact graft.fresh ⟨key, path, belongs, by omega, same ▸ reached⟩
          apply graft.same other ⟨key, path, belongs, by omega, reached⟩ old index
          intro same
          obtain ⟨sameKey, samePath⟩ := forest.unique belongs graft.belongs (by omega)
            (le_of_lt graft.short) reached (same.1 ▸ graft.reached)
          apply avoids
          rw [samePath, same.2]
          exact ⟨sameKey, List.prefix_rfl⟩

/-- The grafted slot leads to the new table. -/
theorem Graft.descend_new
    (graft : Graft child child' member root depth owner stem table slot new)
    (forest : Forest child member root depth) :
    descend child' (root owner) (stem ++ [slot]) = some new := by
  have avoids : ¬(owner = owner ∧ stem ++ [slot] <+: stem) := by
    intro passes
    have length := passes.2.length_le
    simp at length
  rw [descend_concat, graft.descend_other forest graft.belongs (le_of_lt graft.short) avoids,
    graft.reached]
  exact graft.hangs

/-- No descent continues below the new table. -/
theorem Graft.descend_below
    (graft : Graft child child' member root depth owner stem table slot new)
    (forest : Forest child member root depth) (index : ι) (path : List ι) :
    descend child' (root owner) (stem ++ [slot] ++ index :: path) = none := by
  rw [descend_append, graft.descend_new forest]
  simp [descend, graft.empty]

/-- Before the graft no descent passes the slot. -/
theorem Graft.descend_before
    (graft : Graft child child' member root depth owner stem table slot new) (path : List ι) :
    descend child (root owner) (stem ++ [slot] ++ path) = none := by
  rw [descend_append, descend_concat, graft.reached]
  simp [graft.vacant]

/-- Every table after the graft is the new one or was reached on the same path before. -/
theorem Graft.descend_cases
    (graft : Graft child child' member root depth owner stem table slot new)
    (forest : Forest child member root depth) {key : κ} {path : List ι} {other : α}
    (belongs : member key) (bound : path.length ≤ depth)
    (reached : descend child' (root key) path = some other) :
    key = owner ∧ path = stem ++ [slot] ∧ other = new ∨
      descend child (root key) path = some other ∧ other ≠ new := by
  by_cases passes : key = owner ∧ stem ++ [slot] <+: path
  · obtain ⟨rfl, rest, rfl⟩ := passes
    cases rest with
    | nil =>
        rw [List.append_nil, graft.descend_new forest] at reached
        exact Or.inl ⟨rfl, by simp, (Option.some.inj reached).symm⟩
    | cons index rest =>
        rw [graft.descend_below forest] at reached
        cases reached
  · rw [graft.descend_other forest belongs bound passes] at reached
    refine Or.inr ⟨reached, ?_⟩
    intro same
    exact graft.fresh ⟨key, path, belongs, bound, same ▸ reached⟩

/-- After the graft the same descents fail as before, but the one to the new table. -/
theorem Graft.descend_eq_none
    (graft : Graft child child' member root depth owner stem table slot new)
    (forest : Forest child member root depth) {key : κ} {path : List ι} (belongs : member key)
    (bound : path.length ≤ depth) :
    descend child' (root key) path = none ↔
      descend child (root key) path = none ∧ ¬(key = owner ∧ path = stem ++ [slot]) := by
  constructor
  · intro absent
    have other : ¬(key = owner ∧ path = stem ++ [slot]) := by
      rintro ⟨rfl, rfl⟩
      rw [graft.descend_new forest] at absent
      cases absent
    refine ⟨?_, other⟩
    by_cases passes : key = owner ∧ stem ++ [slot] <+: path
    · obtain ⟨rfl, rest, rfl⟩ := passes
      exact graft.descend_before rest
    · exact (graft.descend_other forest belongs bound passes).symm.trans absent
  · rintro ⟨absent, other⟩
    by_contra present
    obtain ⟨below, reached⟩ := Option.ne_none_iff_exists'.mp present
    rcases graft.descend_cases forest belongs bound reached with ⟨same, equal, -⟩ | ⟨old, -⟩
    · exact other ⟨same, equal⟩
    · rw [absent] at old
      cases old

/-- A graft keeps the forest. -/
theorem Graft.forest (graft : Graft child child' member root depth owner stem table slot new)
    (forest : Forest child member root depth) : Forest child' member root depth where
  unique {key key' path path' other} belongs belongs' short short' reached reached' := by
    rcases graft.descend_cases forest belongs short reached with new | ⟨old, different⟩
    · rcases graft.descend_cases forest belongs' short' reached' with new' | ⟨-, different'⟩
      · exact ⟨new.1.trans new'.1.symm, new.2.1.trans new'.2.1.symm⟩
      · exact absurd new.2.2 different'
    · rcases graft.descend_cases forest belongs' short' reached' with new' | ⟨old', -⟩
      · exact absurd new'.2.2 different
      · exact forest.unique belongs belongs' short short' old old'

end Graft

section Plant
variable {child child' : α → ι → Option α} {member member' : κ → Prop} {root root' : κ → α}
  {depth : Nat} {owner : κ} {new : α}

/-- A planting makes one fresh empty table the root of its owner. -/
structure Planting (child child' : α → ι → Option α) (member member' : κ → Prop)
    (root root' : κ → α) (depth : Nat) (owner : κ) (new : α) : Prop where
  fresh : ¬Reached child member root depth new
  planted : root' owner = new
  others : ∀ key, member' key → key ≠ owner → member key ∧ root' key = root key
  empty : ∀ index, child' new index = none
  same : ∀ other, Reached child member root depth other → other ≠ new → ∀ index,
    child' other index = child other index

/-- A planting keeps every descent from the other roots. -/
theorem Planting.descend_other
    (planting : Planting child child' member member' root root' depth owner new)
    {key : κ} {path : List ι} (belongs : member' key) (different : key ≠ owner)
    (short : path.length ≤ depth) :
    descend child' (root' key) path = descend child (root key) path := by
  obtain ⟨old, unchanged⟩ := planting.others key belongs different
  rw [unchanged]
  apply descend_congr old short
  intro key path other belongs short reached index
  apply planting.same other ⟨key, path, belongs, le_of_lt short, reached⟩
  intro equal
  exact planting.fresh ⟨key, path, belongs, le_of_lt short, equal ▸ reached⟩

/-- The new root has no table below it. -/
theorem Planting.descend_below
    (planting : Planting child child' member member' root root' depth owner new)
    (index : ι) (path : List ι) : descend child' (root' owner) (index :: path) = none := by
  simp [descend, planting.planted, planting.empty]

/-- Every table after the planting is the new root or was reached on the same path before. -/
theorem Planting.descend_cases
    (planting : Planting child child' member member' root root' depth owner new)
    {key : κ} {path : List ι} {other : α} (belongs : member' key) (bound : path.length ≤ depth)
    (reached : descend child' (root' key) path = some other) :
    key = owner ∧ path = [] ∧ other = new ∨
      member key ∧ descend child (root key) path = some other ∧ other ≠ new := by
  by_cases same : key = owner
  · subst same
    cases path with
    | nil =>
        rw [descend_nil, planting.planted] at reached
        exact Or.inl ⟨rfl, rfl, (Option.some.inj reached).symm⟩
    | cons index path =>
        rw [planting.descend_below] at reached
        cases reached
  · rw [planting.descend_other belongs same bound] at reached
    have old := (planting.others key belongs same).1
    refine Or.inr ⟨old, reached, ?_⟩
    intro equal
    exact planting.fresh ⟨key, path, old, bound, equal ▸ reached⟩

/-- A planting keeps the forest. -/
theorem Planting.forest
    (planting : Planting child child' member member' root root' depth owner new)
    (forest : Forest child member root depth) : Forest child' member' root' depth where
  unique belongs belongs' short short' reached reached' := by
    rcases planting.descend_cases belongs short reached with new | ⟨member, old, different⟩
    · rcases planting.descend_cases belongs' short' reached' with new' | ⟨-, -, different'⟩
      · exact ⟨new.1.trans new'.1.symm, new.2.1.trans new'.2.1.symm⟩
      · exact absurd new.2.2 different'
    · rcases planting.descend_cases belongs' short' reached' with new' | ⟨member', old', -⟩
      · exact absurd new'.2.2 different
      · exact forest.unique member member' short short' old old'

end Plant

end TableForest

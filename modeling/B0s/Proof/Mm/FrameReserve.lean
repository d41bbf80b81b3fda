import B0s.Proof.Mm.FrameDemand
import B0s.Proof.Mm.RegionList

/-
This file counts the frames of a run that allocates records and page tables in turns.
-/

namespace B0s
open TableForest

variable {σ : Type}

/-- The allocator state changes only through calls of the object allocator. -/
inductive ObjectAllocator.Records (objects : ObjectAllocator σ) : σ → σ → Prop where
  | refl (env : σ) : Records objects env env
  | alloc {start env : σ} (steps : Records objects start env) (type : StructType) :
      Records objects start (objects.blockAlloc type env).2
  | free {start env : σ} (steps : Records objects start env) (type : StructType) (ptr : Nat) :
      Records objects start (objects.blockFree type ptr env)

theorem ObjectAllocator.Records.trans {objects : ObjectAllocator σ} {first second third : σ}
    (one : objects.Records first second) (two : objects.Records second third) : objects.Records first third := by
  induction two with
  | refl => exact one
  | alloc _ type ih => exact ih.alloc type
  | free _ type ptr ih => exact ih.free type ptr

theorem ObjectAllocator.Reaches.records {objects : ObjectAllocator σ} {env env' : σ}
    (reaches : objects.Reaches env env') : objects.Records env env' := by
  induction reaches with
  | refl => exact .refl _
  | alloc _ ih => exact ih.alloc _
  | free _ ptr ih => exact ih.free _ ptr

/-- The frame allocator gives out this many frames, whatever records are allocated in between. -/
def KernelAllocator.Lasts (alloc : KernelAllocator σ) : Nat → σ → Prop
  | 0, _ => True
  | count + 1, env => ∀ env', alloc.toObjectAllocator.Records env env' →
      (alloc.pmmXalloc env').Gives fun taken => alloc.Lasts count taken.2

section
variable {alloc : KernelAllocator σ} {count fewer : Nat} {env env' : σ}

theorem KernelAllocator.Lasts.records (lasts : alloc.Lasts count env)
    (records : alloc.toObjectAllocator.Records env env') : alloc.Lasts count env' := by
  cases count with
  | zero => trivial
  | succ count => exact fun env'' later => lasts env'' (records.trans later)

theorem KernelAllocator.Lasts.take (lasts : alloc.Lasts (count + 1) env) :
    (alloc.pmmXalloc env).Gives fun taken => alloc.Lasts count taken.2 :=
  lasts env (.refl env)

theorem KernelAllocator.Lasts.mono (lasts : alloc.Lasts count env) (fits : fewer ≤ count) : alloc.Lasts fewer env := by
  induction fewer generalizing count env with
  | zero => trivial
  | succ fewer ih =>
      obtain ⟨count, rfl⟩ := Nat.exists_eq_succ_of_ne_zero (Nat.ne_of_gt (Nat.zero_lt_of_lt fits))
      intro env' records
      obtain ⟨taken, returned, rest⟩ := lasts env' records
      exact ⟨taken, returned, ih rest (Nat.le_of_succ_le_succ fits)⟩

/-- Records of the ledger take no frames. -/
theorem ledgerAllocator_lasts {pages : Nat} (bounded : pages ≤ 2 ^ 52) {env : Ledger}
    (room : env.frames.foldr max 0 + count < pages) : (ledgerAllocator pages bounded).Lasts count env := by
  induction count generalizing env with
  | zero => trivial
  | succ count ih =>
      intro env' records
      have frames : env'.frames = env.frames := by
        induction records with
        | refl => rfl
        | alloc _ type ih => exact ih
        | free _ type ptr ih => exact ih
      have inside : env'.frames.foldr max 0 + 1 < pages := by
        rw [frames]
        omega
      refine ⟨_, if_pos inside, ih ?_⟩
      simp only [List.foldr_cons, frames]
      omega

end

/-- These tables lie on the walks to the pages. -/
def walkTablesOf (pages : List Nat) : Finset (List (Fin 512)) := pages.toFinset.biUnion walkTables

theorem walkTablesOf_subset {pages : List Nat} {va : Nat} (member : va ∈ pages) : walkTables va ⊆ walkTablesOf pages :=
  Finset.subset_biUnion_of_mem walkTables (List.mem_toFinset.mpr member)

/-- A page has three tables on its walk. -/
theorem walkTablesOf_card_le (pages : List Nat) : (walkTablesOf pages).card ≤ 3 * pages.length := by
  have each : ∀ va ∈ pages.toFinset, (walkTables va).card ≤ 3 := fun va _ => Finset.card_le_three
  have total := Finset.card_biUnion_le_card_mul pages.toFinset walkTables 3 each
  have distinct := List.toFinset_card_le pages
  rw [walkTablesOf]
  omega

theorem walkTables_ne_nil {va : Nat} {path : List (Fin 512)} (passed : path ∈ walkTables va) : path ≠ [] := by
  simp only [walkTables, Finset.mem_insert, Finset.mem_singleton] at passed
  rcases passed with rfl | rfl | rfl <;> simp [walkPath]

theorem mem_windowPages {start count va : Nat} :
    va ∈ windowPages start count ↔ ∃ index < count, va = start + index * pageSizeInBytes := by
  induction count generalizing start with
  | zero => simp [windowPages]
  | succ count ih =>
      rw [windowPages, List.mem_cons, ih]
      constructor
      · rintro (rfl | ⟨index, small, rfl⟩)
        · exact ⟨0, Nat.succ_pos _, by omega⟩
        · exact ⟨index + 1, Nat.succ_lt_succ small, by rw [Nat.succ_mul]; omega⟩
      · rintro ⟨_ | index, small, rfl⟩
        · exact Or.inl (by omega)
        · exact Or.inr ⟨index, Nat.lt_of_succ_lt_succ small, by rw [Nat.succ_mul]; omega⟩

section
variable {alloc : KernelAllocator σ} {member : Nat → Prop} {kernel : Kernel σ} {space table permWoG : Nat}
  {stem : List (Fin 512)}

/-- Ensuring a table takes a frame only when the table is missing. -/
theorem mmuEnsureTable_lasts (slot : Fin 512)
    (reached : descend (tableBelow kernel.word) (kernel.root space) stem = some table) {count : Nat}
    (lasts : alloc.Lasts (count + if kernel.Missing space (stem ++ [slot]) then 1 else 0) kernel.env) :
    (mmuEnsureTable alloc.toFrameAllocator (entryAddr table slot) permWoG kernel).Gives
      fun ensured => alloc.Lasts count ensured.2.env := by
  have below : kernel.Missing space (stem ++ [slot]) ↔ kernel.word (entryAddr table slot) &&& pagePresent = 0 := by
    rw [Kernel.Missing, descend_concat, reached]
    simp [tableBelow]
  unfold mmuEnsureTable
  by_cases absent : kernel.word (entryAddr table slot) &&& pagePresent = 0
  · rw [if_pos (below.mpr absent)] at lasts
    obtain ⟨taken, returned, rest⟩ := lasts.take
    rw [if_pos absent, Outcome.bind_gives]
    exact ⟨taken, returned, Outcome.ok_gives.mpr rest⟩
  · rw [if_neg fun missing => absent (below.mp missing)] at lasts
    rw [if_neg absent, Outcome.ok_gives]
    exact lasts

/-- Mapping a page returns while the frames last for the missing tables of its walk. -/
theorem mmuMapPage_lasts (tables : PageTables alloc.toFrameAllocator member kernel) (belongs : member space)
    {va pa perm : Nat} (small : perm < pageSizeInBytes) {count : Nat}
    (lasts : alloc.Lasts (count + ((walkTables va).filter (kernel.Missing space)).card) kernel.env) :
    (mmuMapPage alloc.toFrameAllocator space va pa perm kernel).Gives fun mapped => alloc.Lasts count mapped.2.env := by
  have smallWoG : perm &&& (2 ^ 64 - 1 - pageGlobal) < pageSizeInBytes := lt_of_le_of_lt Nat.and_le_left small
  have root : descend (tableBelow kernel.word) (kernel.root space) [] = some (kernel.root space) := rfl
  rw [walkTables_card, ← Nat.add_assoc, ← Nat.add_assoc] at lasts
  unfold mmuMapPage
  obtain ⟨⟨pdpt, first⟩, ensured, left⟩ := mmuEnsureTable_lasts ⟨pml4eIndex va, pml4eIndex_lt va⟩ root lasts
  obtain ⟨grown, reached⟩ := mmuEnsureTable_grows ⟨pml4eIndex va, pml4eIndex_lt va⟩ tables belongs (by decide) root
    smallWoG ensured
  have adds := mmuEnsureTable_adds ⟨pml4eIndex va, pml4eIndex_lt va⟩ tables belongs (by decide) root smallWoG ensured
  have second : first.Missing space ((walkPath va).take 2) ↔ kernel.Missing space ((walkPath va).take 2) := by
    rw [adds _ (by simp [walkPath])]
    simp [walkPath]
  simp only [← second] at left
  obtain ⟨⟨pdt, middle⟩, ensured', left'⟩ := mmuEnsureTable_lasts ⟨pdptIndex va, pdptIndex_lt va⟩ reached left
  obtain ⟨grown', reached'⟩ := mmuEnsureTable_grows ⟨pdptIndex va, pdptIndex_lt va⟩ grown.tables belongs (by simp)
    reached smallWoG ensured'
  have adds' := mmuEnsureTable_adds ⟨pdptIndex va, pdptIndex_lt va⟩ grown.tables belongs (by simp) reached smallWoG
    ensured'
  have third : middle.Missing space (walkPath va) ↔ kernel.Missing space (walkPath va) := by
    rw [(adds.trans adds') _ (by simp [walkPath])]
    simp [walkPath]
  simp only [← third] at left'
  obtain ⟨⟨pt, last⟩, ensured'', left''⟩ := mmuEnsureTable_lasts ⟨pdtIndex va, pdtIndex_lt va⟩ reached' left'
  refine Outcome.bind_gives.mpr ⟨_, ensured, ?_⟩
  refine Outcome.bind_gives.mpr ⟨_, ensured', ?_⟩
  exact Outcome.bind_gives.mpr ⟨_, ensured'', Outcome.ok_gives.mpr left''⟩

end

end B0s

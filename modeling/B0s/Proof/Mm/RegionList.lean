import B0s.Construction.Mm.Region
import B0s.Library.DoublyLinked
import B0s.Library.RangeMap

/-
This file relates the linked region records of a space to lists of ranges.
-/

namespace B0s
open DoublyLinked RangeMap

variable {σ : Type}

/-- A region record denotes one flagged range of addresses. -/
def VmmRegion.range (record : VmmRegion) : Range Nat Nat :=
  ⟨record.vaStart, record.vaStop, record.flags⟩

/-- The records at the listed pointers denote these ranges. -/
def Kernel.ranges (kernel : Kernel σ) (ptrs : List Nat) : List (Range Nat Nat) :=
  ptrs.map fun ptr => (kernel.region ptr).range

theorem Kernel.ranges_append (kernel : Kernel σ) (first second : List Nat) :
    kernel.ranges (first ++ second) = kernel.ranges first ++ kernel.ranges second :=
  List.map_append

@[simp] theorem Kernel.ranges_nil (kernel : Kernel σ) : kernel.ranges [] = [] := rfl

@[simp] theorem Kernel.ranges_cons (kernel : Kernel σ) (ptr : Nat) (rest : List Nat) :
    kernel.ranges (ptr :: rest) = (kernel.region ptr).range :: kernel.ranges rest := rfl

/-- Ranges depend only on the records of the listed pointers. -/
theorem Kernel.ranges_congr {kernel kernel' : Kernel σ} {ptrs : List Nat}
    (same : ∀ ptr ∈ ptrs, (kernel'.region ptr).range = (kernel.region ptr).range) :
    kernel'.ranges ptrs = kernel.ranges ptrs :=
  List.map_congr_left same

/-- The space links the listed records in both directions, and all of them are in use. -/
structure SpaceList (objects : ObjectAllocator σ) (kernel : Kernel σ) (space : Nat)
    (ptrs : List Nat) : Prop where
  head : (kernel.space space).region = ptrs.headD NULL
  linked : Segment (fun ptr => (kernel.region ptr).next) (fun ptr => (kernel.region ptr).prev)
    NULL ptrs NULL
  distinct : ptrs.Nodup
  live : ∀ ptr ∈ ptrs, objects.live kernel.env .vmmRegion ptr

/-- The allocator state changes only through calls of the object allocator for regions. -/
inductive ObjectAllocator.Reaches (objects : ObjectAllocator σ) : σ → σ → Prop where
  | refl (env : σ) : Reaches objects env env
  | alloc {start env : σ} (steps : Reaches objects start env) :
      Reaches objects start (objects.blockAlloc .vmmRegion env).2
  | free {start env : σ} (steps : Reaches objects start env) (ptr : Nat) :
      Reaches objects start (objects.blockFree .vmmRegion ptr env)

theorem ObjectAllocator.Reaches.trans {objects : ObjectAllocator σ} {first second third : σ}
    (one : objects.Reaches first second) (two : objects.Reaches second third) :
    objects.Reaches first third := by
  induction two with
  | refl => exact one
  | alloc _ ih => exact ih.alloc
  | free _ ptr ih => exact ih.free ptr

/-- A change of one space keeps the other spaces, their records, and the direct mapping. -/
structure RegionFrame (objects : ObjectAllocator σ) (kernel kernel' : Kernel σ) (space : Nat)
    (ptrs : List Nat) : Prop where
  region : ∀ ptr, objects.live kernel.env .vmmRegion ptr → ptr ∉ ptrs →
    kernel'.region ptr = kernel.region ptr ∧ objects.live kernel'.env .vmmRegion ptr
  spaces : ∀ other, other ≠ space → kernel'.space other = kernel.space other
  directory : (kernel'.space space).pageDirectory = (kernel.space space).pageDirectory
  word : kernel'.word = kernel.word
  env : objects.Reaches kernel.env kernel'.env
  created : ∀ other, objects.live kernel'.env .vmmSpace other ↔
    objects.live kernel.env .vmmSpace other

/-- Frames compose when the second list adds only records that were not in use before. -/
theorem RegionFrame.trans {objects : ObjectAllocator σ} {first second third : Kernel σ}
    {space : Nat} {ptrs ptrs' : List Nat} (one : RegionFrame objects first second space ptrs)
    (two : RegionFrame objects second third space ptrs')
    (grown : ∀ ptr ∈ ptrs', objects.live first.env .vmmRegion ptr → ptr ∈ ptrs) :
    RegionFrame objects first third space ptrs where
  region ptr alive outside := by
    have kept := one.region ptr alive outside
    have again := two.region ptr kept.2 fun member => outside (grown ptr member alive)
    exact ⟨again.1.trans kept.1, again.2⟩
  spaces other different := (two.spaces other different).trans (one.spaces other different)
  directory := two.directory.trans one.directory
  word := two.word.trans one.word
  env := one.env.trans two.env
  created other := (two.created other).trans (one.created other)

theorem SpaceList.ne_null {objects : ObjectAllocator σ} {kernel : Kernel σ} {space : Nat}
    {ptrs : List Nat} (listed : SpaceList objects kernel space ptrs) {ptr : Nat}
    (member : ptr ∈ ptrs) : ptr ≠ NULL :=
  objects.live_ne_null _ _ _ (listed.live ptr member)

/-- The listed regions leave the last byte of the address space free. -/
def Kernel.Bounded (kernel : Kernel σ) (ptrs : List Nat) : Prop :=
  ∀ va flags, Denotes (kernel.ranges ptrs) va flags → va < 2 ^ 64 - 1

/-- A bounded list of disjoint regions is shorter than the walk limit. -/
theorem Kernel.Bounded.length_lt {kernel : Kernel σ} {ptrs : List Nat}
    (bounded : kernel.Bounded ptrs) (canonical : Canonical (kernel.ranges ptrs)) :
    ptrs.length < walkLimit := by
  have count := canonical.length_le bounded
  simp only [Kernel.ranges, List.length_map] at count
  unfold walkLimit
  omega

/-- The pointer before a split is null exactly when the first part is empty. -/
theorem getLastD_eq_null {ptrs : List Nat} (nonnull : ∀ ptr ∈ ptrs, ptr ≠ NULL) :
    ptrs.getLastD NULL = NULL ↔ ptrs = [] := by
  rcases ptrs.eq_nil_or_concat' with rfl | ⟨init, last, rfl⟩
  · simp
  · have different := nonnull last (by simp)
    simpa using different

/-- The pointer after a split is null exactly when the second part is empty. -/
theorem headD_eq_null {ptrs : List Nat} (nonnull : ∀ ptr ∈ ptrs, ptr ≠ NULL) :
    ptrs.headD NULL = NULL ↔ ptrs = [] := by
  cases ptrs with
  | nil => simp
  | cons head rest =>
      have different := nonnull head (by simp)
      simpa using different

/-- A nonnull pointer equals the pointer before a split exactly when it is last there. -/
theorem eq_getLastD_iff {ptrs : List Nat} {ptr : Nat} (nonnull : ptr ≠ NULL) :
    (ptrs.getLastD NULL ≠ NULL ∧ ptr = ptrs.getLastD NULL) ↔ ptrs.getLast? = some ptr := by
  rcases ptrs.eq_nil_or_concat' with rfl | ⟨init, last, rfl⟩
  · simp
  · simp only [List.getLastD_concat, List.getLast?_concat, Option.some.injEq]
    constructor
    · rintro ⟨_, rfl⟩
      rfl
    · rintro rfl
      exact ⟨nonnull, rfl⟩

/-- A nonnull pointer equals the pointer after a split exactly when it is first there. -/
theorem eq_headD_iff {ptrs : List Nat} {ptr : Nat} (nonnull : ptr ≠ NULL) :
    (ptrs.headD NULL ≠ NULL ∧ ptr = ptrs.headD NULL) ↔ ptrs.head? = some ptr := by
  cases ptrs with
  | nil => simp
  | cons head rest =>
      simp only [List.headD_cons, List.head?_cons, Option.some.injEq]
      constructor
      · rintro ⟨_, rfl⟩
        rfl
      · rintro rfl
        exact ⟨nonnull, rfl⟩

section
variable (objects : ObjectAllocator σ)

/-- Over an allocator that obeys the contract, `vmm_create_region` returns this region and state. -/
def createRegion (space vaStart vaStop flags : Nat) (prev next : Nat) (kernel : Kernel σ) : Nat × Kernel σ :=
  let (region, env) := objects.blockAlloc .vmmRegion kernel.env
  (region, linkRegion space vaStart vaStop flags prev next region { kernel with env := env })

/-- Over an allocator that obeys the contract, `vmm_remove_region` returns this state. -/
def removeRegion (space region : Nat) (kernel : Kernel σ) : Kernel σ :=
  let kernel := unlinkRegion space region kernel
  { kernel with env := objects.blockFree .vmmRegion region kernel.env }

variable (kernel : Kernel σ) (space : Nat)

theorem vmmCreateRegion_calls (vaStart vaStop flags : Nat) (prev next : Nat) :
    vmmCreateRegion objects space vaStart vaStop flags prev next kernel =
      .ok (createRegion objects space vaStart vaStop flags prev next kernel) := rfl

theorem vmmRemoveRegion_calls (region : Nat) :
    vmmRemoveRegion objects space region kernel = .ok (removeRegion objects space region kernel) := rfl

/-- Creating a region writes its record and the two links towards it. -/
theorem createRegion_region (vaStart vaStop flags : Nat) (prev next : Nat)
    (freshPrev : (objects.blockAlloc .vmmRegion kernel.env).1 ≠ prev)
    (freshNext : (objects.blockAlloc .vmmRegion kernel.env).1 ≠ next) (ptr : Nat) :
    (createRegion objects space vaStart vaStop flags prev next kernel).2.region ptr =
      if ptr = (objects.blockAlloc .vmmRegion kernel.env).1 then
        ⟨vaStart, vaStop, next, prev, flags⟩
      else
        { kernel.region ptr with
          next := if prev ≠ NULL ∧ ptr = prev then (objects.blockAlloc .vmmRegion kernel.env).1
            else (kernel.region ptr).next
          prev := if next ≠ NULL ∧ ptr = next then (objects.blockAlloc .vmmRegion kernel.env).1
            else (kernel.region ptr).prev } := by
  by_cases noPrev : prev = NULL <;> by_cases noNext : next = NULL <;>
    by_cases isNew : ptr = (objects.blockAlloc .vmmRegion kernel.env).1 <;>
    by_cases isPrev : ptr = prev <;> by_cases isNext : ptr = next <;>
    simp_all [createRegion, linkRegion, Kernel.setHead, Kernel.setNext, Kernel.setPrev, Kernel.setRegion,
      Function.update_apply]

theorem createRegion_env (vaStart vaStop flags : Nat) (prev next : Nat) :
    (createRegion objects space vaStart vaStop flags prev next kernel).2.env =
      (objects.blockAlloc .vmmRegion kernel.env).2 := by
  unfold createRegion linkRegion
  dsimp only
  split_ifs <;> rfl

theorem createRegion_word (vaStart vaStop flags : Nat) (prev next : Nat) :
    (createRegion objects space vaStart vaStop flags prev next kernel).2.word = kernel.word := by
  unfold createRegion linkRegion
  dsimp only
  split_ifs <;> rfl

theorem createRegion_space (vaStart vaStop flags : Nat) (prev next : Nat) :
    (createRegion objects space vaStart vaStop flags prev next kernel).2.space =
      if prev = NULL then Function.update kernel.space space
        { kernel.space space with region := (objects.blockAlloc .vmmRegion kernel.env).1 }
      else kernel.space := by
  unfold createRegion linkRegion
  dsimp only
  split_ifs <;> rfl

/-- Removing a region writes only the two links around it. -/
theorem removeRegion_region (region : Nat)
    (selfPrev : (kernel.region region).prev ≠ region) (ptr : Nat) :
    (removeRegion objects space region kernel).region ptr =
      { kernel.region ptr with
        next := if (kernel.region region).prev ≠ NULL ∧ ptr = (kernel.region region).prev then
          (kernel.region region).next else (kernel.region ptr).next
        prev := if (kernel.region region).next ≠ NULL ∧ ptr = (kernel.region region).next then
          (kernel.region region).prev else (kernel.region ptr).prev } := by
  by_cases alone : (kernel.region region).prev = NULL ∧ (kernel.region region).next = NULL
  · simp [removeRegion, unlinkRegion, alone]
  · unfold removeRegion unlinkRegion
    rw [if_neg alone]
    generalize linked : (if (kernel.space space).region = region then
      kernel.setHead space (kernel.region region).next else kernel) = start
    have base : start.region = kernel.region := by
      rw [← linked]
      split_ifs <;> rfl
    dsimp only
    rw [base]
    have unchanged (kernel' : Kernel σ)
        (chosen : kernel' = if (kernel.region region).prev ≠ NULL then
          start.setNext (kernel.region region).prev (kernel.region region).next else start) :
        kernel'.region region = kernel.region region := by
      subst chosen
      split_ifs
      · rw [Kernel.setNext_region, if_neg selfPrev.symm, base]
      · rw [base]
    rw [unchanged _ rfl]
    clear unchanged linked selfPrev alone
    generalize (kernel.region region).prev = before
    generalize (kernel.region region).next = behind
    by_cases noPrev : before = NULL <;> by_cases noNext : behind = NULL <;>
      by_cases isPrev : ptr = before <;> by_cases isNext : ptr = behind <;>
      simp_all [Kernel.setNext_region, Kernel.setPrev_region]

theorem removeRegion_env (region : Nat) :
    (removeRegion objects space region kernel).env =
      objects.blockFree .vmmRegion region kernel.env := by
  unfold removeRegion unlinkRegion
  dsimp only
  split_ifs <;> rfl

theorem removeRegion_word (region : Nat) :
    (removeRegion objects space region kernel).word = kernel.word := by
  unfold removeRegion unlinkRegion
  dsimp only
  split_ifs <;> rfl

theorem removeRegion_space (region : Nat) :
    (removeRegion objects space region kernel).space =
      if (kernel.region region).prev = NULL ∧ (kernel.region region).next = NULL then
        Function.update kernel.space space { kernel.space space with region := NULL }
      else if (kernel.space space).region = region then
        Function.update kernel.space space
          { kernel.space space with region := (kernel.region region).next }
      else kernel.space := by
  unfold removeRegion unlinkRegion
  dsimp only
  split_ifs <;> rfl

end

/-- A call replaces the record list of one space and keeps everything else. -/
structure Relisted (objects : ObjectAllocator σ) (kernel kernel' : Kernel σ) (space : Nat)
    (before after : List Nat) (ranges : List (Range Nat Nat)) : Prop where
  listed : SpaceList objects kernel' space after
  ranges_eq : kernel'.ranges after = ranges
  frame : RegionFrame objects kernel kernel' space before
  fresh : ∀ ptr ∈ after, objects.live kernel.env .vmmRegion ptr → ptr ∈ before

/-- Two replacements in a row form one replacement. -/
theorem Relisted.trans {objects : ObjectAllocator σ} {first second third : Kernel σ} {space : Nat}
    {before middle after : List Nat} {ranges ranges' : List (Range Nat Nat)}
    (one : Relisted objects first second space before middle ranges)
    (two : Relisted objects second third space middle after ranges') :
    Relisted objects first third space before after ranges' where
  listed := two.listed
  ranges_eq := two.ranges_eq
  frame := one.frame.trans two.frame one.fresh
  fresh ptr member alive := by
    by_contra outside
    have kept := one.frame.region ptr alive outside
    exact outside (one.fresh ptr (two.fresh ptr member kept.2) alive)

section Create
variable {objects : ObjectAllocator σ} {kernel kernel' : Kernel σ} {space : Nat}
  {first second : List Nat} {vaStart vaStop flags region : Nat}

/-- A created region differs from every record in use, and it is in use afterwards. -/
theorem createRegion_fresh
    (created : createRegion objects space vaStart vaStop flags (first.getLastD NULL)
      (second.headD NULL) kernel = (region, kernel')) :
    region = (objects.blockAlloc .vmmRegion kernel.env).1 ∧
      kernel'.env = (objects.blockAlloc .vmmRegion kernel.env).2 ∧
      ∀ ptr, objects.live kernel.env .vmmRegion ptr → ptr ≠ region := by
  have name : region = (objects.blockAlloc .vmmRegion kernel.env).1 :=
    (congrArg Prod.fst created).symm
  refine ⟨name, ?_, ?_⟩
  · have envNow := createRegion_env objects kernel space vaStart vaStop flags
      (first.getLastD NULL) (second.headD NULL)
    rw [created] at envNow
    exact envNow
  · rintro ptr alive rfl
    rw [name] at alive
    exact objects.alloc_fresh _ _ alive

/-- Creating a region writes its record and the links of its two neighbours. -/
theorem createRegion_records (listed : SpaceList objects kernel space (first ++ second))
    (created : createRegion objects space vaStart vaStop flags (first.getLastD NULL)
      (second.headD NULL) kernel = (region, kernel')) :
    kernel'.region region = ⟨vaStart, vaStop, second.headD NULL, first.getLastD NULL, flags⟩ ∧
      ∀ ptr, objects.live kernel.env .vmmRegion ptr → kernel'.region ptr = { kernel.region ptr with
        next := if first.getLast? = some ptr then region else (kernel.region ptr).next
        prev := if second.head? = some ptr then region else (kernel.region ptr).prev } := by
  obtain ⟨name, -, isNew⟩ := createRegion_fresh created
  have freshNonnull : region ≠ NULL := by
    rw [name]
    exact objects.live_ne_null _ _ _ ((objects.alloc_live .vmmRegion kernel.env .vmmRegion _).mpr
      (Or.inr ⟨rfl, rfl⟩))
  have freshPrev : region ≠ first.getLastD NULL := by
    rcases first.eq_nil_or_concat' with rfl | ⟨init, last, rfl⟩
    · exact freshNonnull
    · simpa using (isNew last (listed.live last (by simp))).symm
  have freshNext : region ≠ second.headD NULL := by
    cases second with
    | nil => exact freshNonnull
    | cons head rest => exact (isNew head (listed.live head (by simp))).symm
  have record (ptr : Nat) := createRegion_region objects kernel space vaStart vaStop flags
    (first.getLastD NULL) (second.headD NULL) (name ▸ freshPrev) (name ▸ freshNext) ptr
  rw [created, ← name] at record
  refine ⟨(record region).trans (if_pos rfl), ?_⟩
  intro ptr alive
  have nonnull := objects.live_ne_null _ _ _ alive
  have kept := (record ptr).trans (if_neg (isNew ptr alive))
  simpa only [eq_getLastD_iff nonnull, eq_headD_iff nonnull] using kept

/-- Creating a region moves the head of the space only when the region comes first. -/
theorem createRegion_head (nonnull : ∀ ptr ∈ first, ptr ≠ NULL)
    (created : createRegion objects space vaStart vaStop flags (first.getLastD NULL)
      (second.headD NULL) kernel = (region, kernel')) :
    kernel'.space = if first = [] then Function.update kernel.space space
      { kernel.space space with region := region } else kernel.space := by
  have name := (createRegion_fresh created).1
  have spaceNow := createRegion_space objects kernel space vaStart vaStop flags
    (first.getLastD NULL) (second.headD NULL)
  rw [created, ← name] at spaceNow
  simpa only [getLastD_eq_null nonnull] using spaceNow

/-- Creating a region between two parts of the list links it there. -/
theorem createRegion_listed (listed : SpaceList objects kernel space (first ++ second))
    (created : createRegion objects space vaStart vaStop flags (first.getLastD NULL)
      (second.headD NULL) kernel = (region, kernel')) :
    SpaceList objects kernel' space (first ++ region :: second) := by
  obtain ⟨name, envNow, isNew⟩ := createRegion_fresh created
  obtain ⟨self, record⟩ := createRegion_records listed created
  have kept (ptr : Nat) (member : ptr ∈ first ++ second) := record ptr (listed.live ptr member)
  refine ⟨?_, ?_, ?_, ?_⟩
  · rw [createRegion_head (fun ptr member => listed.ne_null (by simp [member])) created]
    cases first with
    | nil => simp
    | cons head rest => simpa using listed.head
  · apply listed.linked.insert listed.distinct
    · exact congrArg VmmRegion.next self
    · exact congrArg VmmRegion.prev self
    · intro ptr last
      have member := List.mem_of_getLast? last
      rw [kept ptr (by simp [member]), if_pos last]
    · intro ptr head
      have member := List.mem_of_mem_head? head
      rw [kept ptr (by simp [member]), if_pos head]
    · intro ptr member notLast
      rw [kept ptr member, if_neg notLast]
    · intro ptr member notHead
      rw [kept ptr member, if_neg notHead]
  · rw [List.nodup_middle]
    exact List.nodup_cons.mpr ⟨fun member => isNew _ (listed.live _ member) rfl, listed.distinct⟩
  · intro ptr member
    rw [envNow, objects.alloc_live, ← name]
    rw [List.mem_append, List.mem_cons] at member
    rcases member with inside | rfl | inside
    · exact Or.inl (listed.live ptr (by simp [inside]))
    · exact Or.inr ⟨rfl, rfl⟩
    · exact Or.inl (listed.live ptr (by simp [inside]))

/-- Creating a region keeps every other space. -/
theorem createRegion_frame (listed : SpaceList objects kernel space (first ++ second))
    (created : createRegion objects space vaStart vaStop flags (first.getLastD NULL)
      (second.headD NULL) kernel = (region, kernel')) :
    RegionFrame objects kernel kernel' space (first ++ second) := by
  obtain ⟨-, envNow, -⟩ := createRegion_fresh created
  obtain ⟨-, record⟩ := createRegion_records listed created
  have spaceNow := createRegion_head (fun ptr member => listed.ne_null (by simp [member])) created
  refine ⟨?_, ?_, ?_, ?_, ?_, ?_⟩
  · intro ptr alive outside
    rw [List.mem_append, not_or] at outside
    have notLast : first.getLast? ≠ some ptr := fun last => outside.1 (List.mem_of_getLast? last)
    have notHead : second.head? ≠ some ptr := fun head => outside.2 (List.mem_of_mem_head? head)
    refine ⟨?_, ?_⟩
    · rw [record ptr alive, if_neg notLast, if_neg notHead]
    · rw [envNow, objects.alloc_live]
      exact Or.inl alive
  · intro other different
    rw [spaceNow]
    split_ifs
    · rw [Function.update_of_ne different]
    · rfl
  · rw [spaceNow]
    split_ifs <;> simp
  · have wordNow := createRegion_word objects kernel space vaStart vaStop flags
      (first.getLastD NULL) (second.headD NULL)
    rw [created] at wordNow
    exact wordNow
  · rw [envNow]
    exact (ObjectAllocator.Reaches.refl _).alloc
  · intro other
    rw [envNow, objects.alloc_live]
    simp

/-- Creating a region adds its range between the ranges of the two parts. -/
theorem createRegion_relisted (listed : SpaceList objects kernel space (first ++ second))
    (created : createRegion objects space vaStart vaStop flags (first.getLastD NULL)
      (second.headD NULL) kernel = (region, kernel')) :
    Relisted objects kernel kernel' space (first ++ second) (first ++ region :: second)
      (kernel.ranges first ++ ⟨vaStart, vaStop, flags⟩ :: kernel.ranges second) := by
  obtain ⟨-, -, isNew⟩ := createRegion_fresh created
  obtain ⟨self, record⟩ := createRegion_records listed created
  have kept : ∀ ptr ∈ first ++ second,
      (kernel'.region ptr).range = (kernel.region ptr).range := by
    intro ptr member
    rw [record ptr (listed.live ptr member)]
    rfl
  refine ⟨createRegion_listed listed created, ?_, createRegion_frame listed created, ?_⟩
  · rw [Kernel.ranges_append, Kernel.ranges_cons, self]
    rw [Kernel.ranges_congr fun ptr member => kept ptr (List.mem_append_left _ member)]
    rw [Kernel.ranges_congr fun ptr member => kept ptr (List.mem_append_right _ member)]
    rfl
  · intro ptr member alive
    rw [List.mem_append, List.mem_cons] at member
    rcases member with inside | rfl | inside
    · simp [inside]
    · exact absurd rfl (isNew _ alive)
    · simp [inside]

end Create

section Remove
variable {objects : ObjectAllocator σ} {kernel : Kernel σ} {space : Nat}
  {first second : List Nat} {region : Nat}

/-- Removing a listed region writes only the links of its two neighbours. -/
theorem removeRegion_records (listed : SpaceList objects kernel space (first ++ region :: second))
    (ptr : Nat) (nonnull : ptr ≠ NULL) :
    (removeRegion objects space region kernel).region ptr = { kernel.region ptr with
      next := if first.getLast? = some ptr then second.headD NULL else (kernel.region ptr).next
      prev := if second.head? = some ptr then first.getLastD NULL else (kernel.region ptr).prev } := by
  have links := listed.linked.links_at
  have selfPrev : (kernel.region region).prev ≠ region := by
    rw [links.2]
    rcases first.eq_nil_or_concat' with rfl | ⟨init, last, rfl⟩
    · have nonnull : region ≠ NULL := listed.ne_null (by simp)
      simpa using nonnull.symm
    · have distinct := listed.distinct
      rw [List.nodup_append] at distinct
      simpa using distinct.2.2 last (by simp) region (by simp)
  rw [removeRegion_region objects kernel space region selfPrev, links.1, links.2]
  simp only [eq_getLastD_iff nonnull, eq_headD_iff nonnull]

/-- Removing a listed region makes the remaining list start at its first record. -/
theorem removeRegion_head (listed : SpaceList objects kernel space (first ++ region :: second)) :
    (removeRegion objects space region kernel).space = Function.update kernel.space space
      { kernel.space space with region := (first ++ second).headD NULL } := by
  have links := listed.linked.links_at
  have nonnull : ∀ ptr ∈ first ++ region :: second, ptr ≠ NULL := fun ptr member =>
    listed.ne_null member
  have startsAt := listed.head
  rw [removeRegion_space, links.1, links.2]
  simp only [getLastD_eq_null fun ptr member => nonnull ptr (List.mem_append_left _ member),
    headD_eq_null fun ptr member =>
      nonnull ptr (List.mem_append_right _ (List.mem_cons_of_mem _ member))]
  cases first with
  | nil =>
      simp only [List.nil_append, List.headD_cons] at startsAt
      cases second with
      | nil => simp
      | cons head rest => simp [startsAt]
  | cons head rest =>
      have distinct := listed.distinct
      simp only [List.cons_append, List.headD_cons] at startsAt
      have different : (kernel.space space).region ≠ region := by
        rw [startsAt]
        rintro rfl
        simp at distinct
      rw [if_neg (by simp), if_neg different, List.cons_append, List.headD_cons, ← startsAt]
      simp

/-- Removing a listed region joins the parts of the list around it. -/
theorem removeRegion_listed
    (listed : SpaceList objects kernel space (first ++ region :: second)) :
    SpaceList objects (removeRegion objects space region kernel) space (first ++ second) := by
  have parts := List.nodup_middle.mp listed.distinct
  have members : ∀ ptr ∈ first ++ second, ptr ∈ first ++ region :: second := by
    intro ptr member
    rw [List.mem_append] at member ⊢
    exact member.imp_right (List.mem_cons_of_mem _)
  have record (ptr : Nat) (member : ptr ∈ first ++ second) :=
    removeRegion_records listed ptr (listed.ne_null (members ptr member))
  refine ⟨?_, ?_, (List.nodup_cons.mp parts).2, ?_⟩
  · rw [removeRegion_head listed]
    simp
  · apply listed.linked.erase listed.distinct
    · intro ptr last
      have member := List.mem_of_getLast? last
      rw [record ptr (List.mem_append_left _ member), if_pos last]
    · intro ptr head
      have member := List.mem_of_mem_head? head
      rw [record ptr (List.mem_append_right _ member), if_pos head]
    · intro ptr member notLast
      rw [record ptr member, if_neg notLast]
    · intro ptr member notHead
      rw [record ptr member, if_neg notHead]
  · intro ptr member
    rw [removeRegion_env, objects.free_live _ _ _ (listed.live region (by simp))]
    refine ⟨listed.live ptr (members ptr member), ?_⟩
    rintro ⟨_, rfl⟩
    exact (List.nodup_cons.mp parts).1 member

/-- Removing a listed region keeps every other range and every other space. -/
theorem removeRegion_relisted
    (listed : SpaceList objects kernel space (first ++ region :: second)) :
    Relisted objects kernel (removeRegion objects space region kernel) space
      (first ++ region :: second) (first ++ second)
      (kernel.ranges first ++ kernel.ranges second) := by
  have record (ptr : Nat) (nonnull : ptr ≠ NULL) := removeRegion_records listed ptr nonnull
  have spaceNow := removeRegion_head listed
  have members : ∀ ptr ∈ first ++ second, ptr ∈ first ++ region :: second := by
    intro ptr member
    rw [List.mem_append] at member ⊢
    exact member.imp_right (List.mem_cons_of_mem _)
  refine ⟨removeRegion_listed listed, ?_, ⟨?_, ?_, ?_, ?_, ?_, ?_⟩, fun ptr member _ =>
    members ptr member⟩
  · rw [← Kernel.ranges_append]
    apply Kernel.ranges_congr
    intro ptr member
    rw [record ptr (listed.ne_null (members ptr member))]
    rfl
  · intro ptr alive outside
    have notLast : first.getLast? ≠ some ptr := fun last =>
      outside (List.mem_append_left _ (List.mem_of_getLast? last))
    have notHead : second.head? ≠ some ptr := fun head =>
      outside (List.mem_append_right _ (List.mem_cons_of_mem _ (List.mem_of_mem_head? head)))
    refine ⟨?_, ?_⟩
    · rw [record ptr (objects.live_ne_null _ _ _ alive), if_neg notLast, if_neg notHead]
    · rw [removeRegion_env, objects.free_live _ _ _ (listed.live region (by simp))]
      refine ⟨alive, ?_⟩
      rintro ⟨_, rfl⟩
      exact outside (by simp)
  · intro other different
    rw [spaceNow, Function.update_of_ne different]
  · rw [spaceNow]
    simp
  · exact removeRegion_word objects kernel space region
  · rw [removeRegion_env]
    exact (ObjectAllocator.Reaches.refl _).free region
  · intro other
    rw [removeRegion_env, objects.free_live _ _ _ (listed.live region (by simp))]
    simp

/-- Rewriting the bounds of a listed region keeps the list and every other space. -/
theorem setRegion_relisted (listed : SpaceList objects kernel space (first ++ region :: second))
    (record : VmmRegion) (sameNext : record.next = (kernel.region region).next)
    (samePrev : record.prev = (kernel.region region).prev) :
    Relisted objects kernel (kernel.setRegion region record) space (first ++ region :: second)
      (first ++ region :: second)
      (kernel.ranges first ++ record.range :: kernel.ranges second) := by
  have parts := List.nodup_cons.mp (List.nodup_middle.mp listed.distinct)
  have other : ∀ ptr, ptr ≠ region →
      (kernel.setRegion region record).region ptr = kernel.region ptr := by
    intro ptr different
    exact Function.update_of_ne different _ _
  have self : (kernel.setRegion region record).region region = record := Function.update_self _ _ _
  have away : ∀ ptr ∈ first ++ second, ptr ≠ region := by
    rintro ptr member rfl
    exact parts.1 member
  refine ⟨⟨listed.head, ?_, listed.distinct, listed.live⟩, ?_,
    ⟨?_, fun _ _ => rfl, rfl, rfl, .refl _, fun _ => Iff.rfl⟩, fun ptr member _ => member⟩
  · apply listed.linked.transport
    intro ptr member
    by_cases same : ptr = region
    · subst same
      rw [self]
      exact ⟨sameNext, samePrev⟩
    · rw [other ptr same]
      exact ⟨rfl, rfl⟩
  · rw [Kernel.ranges_append, Kernel.ranges_cons, self]
    rw [Kernel.ranges_congr fun ptr member =>
      congrArg VmmRegion.range (other ptr (away ptr (List.mem_append_left _ member)))]
    rw [Kernel.ranges_congr fun ptr member =>
      congrArg VmmRegion.range (other ptr (away ptr (List.mem_append_right _ member)))]
  · intro ptr alive outside
    refine ⟨other ptr ?_, alive⟩
    rintro rfl
    exact outside (by simp)

/-- Writing the stop of a listed region changes only that end of its range. -/
theorem setStop_relisted (listed : SpaceList objects kernel space (first ++ region :: second))
    (vaStop : Nat) :
    Relisted objects kernel (kernel.setStop region vaStop) space (first ++ region :: second)
      (first ++ region :: second) (kernel.ranges first ++
        ⟨(kernel.region region).vaStart, vaStop, (kernel.region region).flags⟩ ::
          kernel.ranges second) :=
  setRegion_relisted listed _ rfl rfl

/-- Writing the start of a listed region changes only that end of its range. -/
theorem setStart_relisted (listed : SpaceList objects kernel space (first ++ region :: second))
    (vaStart : Nat) :
    Relisted objects kernel (kernel.setStart region vaStart) space (first ++ region :: second)
      (first ++ region :: second) (kernel.ranges first ++
        ⟨vaStart, (kernel.region region).vaStop, (kernel.region region).flags⟩ ::
          kernel.ranges second) :=
  setRegion_relisted listed _ rfl rfl

end Remove

end B0s

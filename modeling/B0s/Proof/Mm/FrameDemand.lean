import B0s.Proof.Mm.PageAlloc

/-
This file counts the frames that a mapping run takes: one for each page and one for each missing table.
-/

namespace B0s
open TableForest

variable {σ : Type}

/-- The call returns a value with the property. -/
def Outcome.Gives {A : Type} (outcome : Outcome A) (property : A → Prop) : Prop :=
  ∃ value, outcome = .ok value ∧ property value

theorem Outcome.bind_gives {A B : Type} {call : Outcome A} {next : A → Outcome B} {property : B → Prop} :
    Outcome.Gives (call >>= next) property ↔ call.Gives fun middle => (next middle).Gives property := by
  constructor
  · rintro ⟨value, done, holds⟩
    obtain ⟨middle, first, second⟩ := Outcome.bind_eq_ok.mp done
    exact ⟨middle, first, value, second, holds⟩
  · rintro ⟨middle, first, value, second, holds⟩
    exact ⟨value, Outcome.bind_eq_ok.mpr ⟨middle, first, second⟩, holds⟩

theorem Outcome.map_gives {A B : Type} {call : Outcome A} {f : A → B} {property : B → Prop} :
    Outcome.Gives (call.map f) property ↔ call.Gives fun value => property (f value) := by
  constructor
  · rintro ⟨value, done, holds⟩
    obtain ⟨before, first, rfl⟩ := Outcome.map_eq_ok.mp done
    exact ⟨before, first, holds⟩
  · rintro ⟨before, first, holds⟩
    exact ⟨f before, Outcome.map_eq_ok.mpr ⟨before, first, rfl⟩, holds⟩

@[simp] theorem Outcome.ok_gives {A : Type} {value : A} {property : A → Prop} :
    Outcome.Gives (.ok value) property ↔ property value := by
  simp [Outcome.Gives]

/-- Only the values that the call can return matter. -/
theorem Outcome.gives_congr {A : Type} {call : Outcome A} {property property' : A → Prop}
    (same : ∀ value, call = .ok value → (property value ↔ property' value)) :
    call.Gives property ↔ call.Gives property' := by
  constructor
  · rintro ⟨value, done, holds⟩
    exact ⟨value, done, (same value done).mp holds⟩
  · rintro ⟨value, done, holds⟩
    exact ⟨value, done, (same value done).mpr holds⟩

/-- The frame allocator gives out this many frames in a row. -/
def FrameAllocator.Supplies (frames : FrameAllocator σ) : Nat → σ → Prop
  | 0, _ => True
  | count + 1, env => (frames.pmmXalloc env).Gives fun taken => frames.Supplies count taken.2

theorem FrameAllocator.Supplies.mono {frames : FrameAllocator σ} {count fewer : Nat} {env : σ}
    (supplies : frames.Supplies count env) (fits : fewer ≤ count) : frames.Supplies fewer env := by
  induction fewer generalizing count env with
  | zero => trivial
  | succ fewer ih =>
      obtain ⟨count, rfl⟩ := Nat.exists_eq_succ_of_ne_zero (Nat.ne_of_gt (Nat.zero_lt_of_lt fits))
      obtain ⟨taken, returned, rest⟩ := supplies
      exact ⟨taken, returned, ih rest (Nat.le_of_succ_le_succ fits)⟩

/-- The ledger gives out the frames above the largest one in use. -/
theorem ledgerAllocator_supplies {pages count : Nat} (bounded : pages ≤ 2 ^ 52) {env : Ledger}
    (room : env.frames.foldr max 0 + count < pages) : (ledgerAllocator pages bounded).Supplies count env := by
  induction count generalizing env with
  | zero => trivial
  | succ count ih =>
      have inside : env.frames.foldr max 0 + 1 < pages := by omega
      refine ⟨_, if_pos inside, ih ?_⟩
      simp only [List.foldr_cons]
      omega

/-- No table stands at the end of the path. -/
def Kernel.Missing (kernel : Kernel σ) (space : Nat) (path : List (Fin 512)) : Prop :=
  descend (tableBelow kernel.word) (kernel.root space) path = none

instance (kernel : Kernel σ) (space : Nat) : DecidablePred (kernel.Missing space) :=
  fun _ => inferInstanceAs (Decidable (_ = none))

/-- The walk to a page passes three tables below the root. -/
def walkTables (va : Nat) : Finset (List (Fin 512)) :=
  {(walkPath va).take 1, (walkPath va).take 2, walkPath va}

/-- These are the tables that the walks to the pages miss. -/
def Kernel.missingTables (kernel : Kernel σ) (space : Nat) : List Nat → Finset (List (Fin 512))
  | [] => ∅
  | va :: pages => (walkTables va).filter (kernel.Missing space) ∪ kernel.missingTables space pages

/-- A run that maps new frames at these pages takes this many frames. -/
def Kernel.framesNeeded (kernel : Kernel σ) (space : Nat) (pages : List Nat) : Nat :=
  pages.length + (kernel.missingTables space pages).card

/-- A page takes at most four frames. -/
theorem Kernel.framesNeeded_le (kernel : Kernel σ) (space : Nat) (pages : List Nat) :
    kernel.framesNeeded space pages ≤ 4 * pages.length := by
  have tables : (kernel.missingTables space pages).card ≤ 3 * pages.length := by
    induction pages with
    | nil => simp [Kernel.missingTables]
    | cons va pages ih =>
        have walk : ((walkTables va).filter (kernel.Missing space)).card ≤ 3 :=
          (Finset.card_filter_le _ _).trans Finset.card_le_three
        have both := Finset.card_union_le ((walkTables va).filter (kernel.Missing space)) (kernel.missingTables space pages)
        rw [Kernel.missingTables, List.length_cons]
        omega
  unfold Kernel.framesNeeded
  omega

/-- The pages of a window follow each other. -/
def windowPages (start : Nat) : Nat → List Nat
  | 0 => []
  | count + 1 => start :: windowPages (start + pageSizeInBytes) count

@[simp] theorem windowPages_length (start count : Nat) : (windowPages start count).length = count := by
  induction count generalizing start with
  | zero => rfl
  | succ count ih => simp [windowPages, ih]

theorem walkTables_length {va : Nat} {path : List (Fin 512)} (passed : path ∈ walkTables va) : path.length ≤ 3 := by
  simp only [walkTables, Finset.mem_insert, Finset.mem_singleton] at passed
  rcases passed with rfl | rfl | rfl <;> simp [walkPath]

/-- Only the words of the tables and the root decide which tables are missing. -/
theorem Kernel.missingTables_congr {kernel kernel' : Kernel σ} {space : Nat} (word : kernel'.word = kernel.word)
    (root : kernel'.root space = kernel.root space) (pages : List Nat) :
    kernel'.missingTables space pages = kernel.missingTables space pages := by
  induction pages with
  | nil => rfl
  | cons va pages ih =>
      rw [Kernel.missingTables, Kernel.missingTables, ih]
      congr 1
      apply Finset.filter_congr
      intro path _
      rw [Kernel.Missing, Kernel.Missing, word, root]

/-- A call adds exactly the tables on these paths to a space. -/
def AddsTables (kernel kernel' : Kernel σ) (space : Nat) (paths : Finset (List (Fin 512))) : Prop :=
  ∀ path, path.length ≤ 3 → (kernel'.Missing space path ↔ kernel.Missing space path ∧ path ∉ paths)

theorem AddsTables.trans {first second third : Kernel σ} {space : Nat} {paths paths' : Finset (List (Fin 512))}
    (one : AddsTables first second space paths) (two : AddsTables second third space paths') :
    AddsTables first third space (paths ∪ paths') := by
  intro path short
  rw [two path short, one path short, Finset.mem_union, not_or, and_assoc]

/-- The tables added on the first walk are not missing on the later ones. -/
theorem AddsTables.missingTables {kernel kernel' : Kernel σ} {space : Nat} {paths : Finset (List (Fin 512))}
    (adds : AddsTables kernel kernel' space paths) (pages : List Nat) :
    kernel'.missingTables space pages = kernel.missingTables space pages \ paths := by
  induction pages with
  | nil => simp [Kernel.missingTables]
  | cons va pages ih =>
      rw [Kernel.missingTables, Kernel.missingTables, ih, Finset.union_sdiff_distrib]
      congr 1
      ext path
      simp only [Finset.mem_filter, Finset.mem_sdiff]
      constructor
      · rintro ⟨passed, missing⟩
        obtain ⟨before, new⟩ := (adds path (walkTables_length passed)).mp missing
        exact ⟨⟨passed, before⟩, new⟩
      · rintro ⟨⟨passed, before⟩, new⟩
        exact ⟨passed, (adds path (walkTables_length passed)).mpr ⟨before, new⟩⟩

theorem AddsTables.framesNeeded {kernel kernel' : Kernel σ} {space : Nat} {paths : Finset (List (Fin 512))}
    (adds : AddsTables kernel kernel' space paths) (pages : List Nat) :
    kernel'.framesNeeded space pages = pages.length + (kernel.missingTables space pages \ paths).card := by
  rw [Kernel.framesNeeded, adds.missingTables]

theorem Kernel.missingTables_missing {kernel : Kernel σ} {space : Nat} {pages : List Nat} {path : List (Fin 512)}
    (missing : path ∈ kernel.missingTables space pages) : kernel.Missing space path := by
  induction pages with
  | nil => simp [Kernel.missingTables] at missing
  | cons va pages ih =>
      rcases Finset.mem_union.mp missing with first | later
      · exact (Finset.mem_filter.mp first).2
      · exact ih later

/-- A run needs the frames of its first page and then those of the others. -/
theorem Kernel.framesNeeded_cons (kernel : Kernel σ) (space va : Nat) (pages : List Nat) :
    kernel.framesNeeded space (va :: pages) = pages.length + (kernel.missingTables space pages \ walkTables va).card +
      ((walkTables va).filter (kernel.Missing space)).card + 1 := by
  have split : kernel.missingTables space (va :: pages) =
      (walkTables va).filter (kernel.Missing space) ∪ (kernel.missingTables space pages \ walkTables va) := by
    rw [Kernel.missingTables]
    ext path
    simp only [Finset.mem_union, Finset.mem_filter, Finset.mem_sdiff]
    constructor
    · rintro (first | later)
      · exact Or.inl first
      · by_cases passed : path ∈ walkTables va
        · exact Or.inl ⟨passed, Kernel.missingTables_missing later⟩
        · exact Or.inr ⟨later, passed⟩
    · rintro (first | ⟨later, -⟩)
      · exact Or.inl first
      · exact Or.inr later
  have apart : Disjoint ((walkTables va).filter (kernel.Missing space))
      (kernel.missingTables space pages \ walkTables va) := by
    apply Finset.disjoint_left.mpr
    intro path first later
    exact (Finset.mem_sdiff.mp later).2 (Finset.mem_filter.mp first).1
  rw [Kernel.framesNeeded, split, Finset.card_union_of_disjoint apart, List.length_cons]
  omega

theorem walkTables_card (va : Nat) (property : List (Fin 512) → Prop) [DecidablePred property] :
    ((walkTables va).filter property).card = (if property (walkPath va) then 1 else 0) +
      (if property ((walkPath va).take 2) then 1 else 0) + if property ((walkPath va).take 1) then 1 else 0 := by
  rw [Finset.card_filter, walkTables, Finset.sum_insert, Finset.sum_insert, Finset.sum_singleton]
  · omega
  · simp [walkPath]
  · simp [walkPath]

section
variable {frames : FrameAllocator σ} {member : Nat → Prop} {kernel kernel' : Kernel σ} {space table permWoG : Nat}
  {stem : List (Fin 512)}

/-- Ensuring a table adds this table. -/
theorem mmuEnsureTable_adds (slot : Fin 512) (tables : PageTables frames member kernel) (belongs : member space)
    (short : stem.length < 3) (reached : descend (tableBelow kernel.word) (kernel.root space) stem = some table)
    (small : permWoG < pageSizeInBytes) {below : Nat}
    (ensured : mmuEnsureTable frames (entryAddr table slot) permWoG kernel = .ok (below, kernel')) :
    AddsTables kernel kernel' space {stem ++ [slot]} := by
  intro path bound
  rw [Finset.mem_singleton]
  rcases mmuEnsureTable_cases slot belongs short reached small ensured with ⟨env, value, hangs, rfl⟩ | ⟨entered, rfl⟩
  · have same := (hangs.graft tables).descend_eq_none tables.forest belongs bound
    simpa [Kernel.Missing] using same
  · constructor
    · intro missing
      refine ⟨missing, ?_⟩
      rintro rfl
      rw [Kernel.Missing, entered] at missing
      cases missing
    · exact And.left

/-- Ensuring a table takes a frame exactly when the table is missing. -/
theorem mmuEnsureTable_frames (slot : Fin 512)
    (reached : descend (tableBelow kernel.word) (kernel.root space) stem = some table) (count : Nat) :
    (mmuEnsureTable frames (entryAddr table slot) permWoG kernel).Gives
        (fun ensured => frames.Supplies count ensured.2.env) ↔
      frames.Supplies (count + if kernel.Missing space (stem ++ [slot]) then 1 else 0) kernel.env := by
  have below : kernel.Missing space (stem ++ [slot]) ↔ kernel.word (entryAddr table slot) &&& pagePresent = 0 := by
    rw [Kernel.Missing, descend_concat, reached]
    simp [tableBelow]
  unfold mmuEnsureTable
  by_cases absent : kernel.word (entryAddr table slot) &&& pagePresent = 0
  · rw [if_pos absent, if_pos (below.mpr absent), Outcome.bind_gives]
    exact Outcome.gives_congr fun taken _ => Outcome.ok_gives
  · rw [if_neg absent, if_neg fun missing => absent (below.mp missing), Outcome.ok_gives]
    rfl

/-- Mapping a page adds the tables of its walk. -/
theorem mmuMapPage_adds (tables : PageTables frames member kernel) (belongs : member space) {va pa perm old : Nat}
    (small : perm < pageSizeInBytes) (mapped : mmuMapPage frames space va pa perm kernel = .ok (old, kernel')) :
    AddsTables kernel kernel' space (walkTables va) := by
  have smallWoG : perm &&& (2 ^ 64 - 1 - pageGlobal) < pageSizeInBytes := lt_of_le_of_lt Nat.and_le_left small
  have root : descend (tableBelow kernel.word) (kernel.root space) [] = some (kernel.root space) := rfl
  unfold mmuMapPage at mapped
  obtain ⟨⟨pdpt, first⟩, ensured, mapped⟩ := Outcome.bind_eq_ok.mp mapped
  obtain ⟨⟨pdt, second⟩, ensured', mapped⟩ := Outcome.bind_eq_ok.mp mapped
  obtain ⟨⟨pt, third⟩, ensured'', mapped⟩ := Outcome.bind_eq_ok.mp mapped
  obtain ⟨rfl, rfl⟩ := Prod.mk.inj (Except.ok.inj mapped)
  obtain ⟨grown, reached⟩ := mmuEnsureTable_grows ⟨pml4eIndex va, pml4eIndex_lt va⟩ tables belongs (by decide) root
    smallWoG ensured
  obtain ⟨grown', reached'⟩ := mmuEnsureTable_grows ⟨pdptIndex va, pdptIndex_lt va⟩ grown.tables belongs (by simp)
    reached smallWoG ensured'
  obtain ⟨grown'', reached''⟩ := mmuEnsureTable_grows ⟨pdtIndex va, pdtIndex_lt va⟩ grown'.tables belongs (by simp)
    reached' smallWoG ensured''
  have adds := mmuEnsureTable_adds ⟨pml4eIndex va, pml4eIndex_lt va⟩ tables belongs (by decide) root smallWoG ensured
  have adds' := mmuEnsureTable_adds ⟨pdptIndex va, pdptIndex_lt va⟩ grown.tables belongs (by simp) reached smallWoG
    ensured'
  have adds'' := mmuEnsureTable_adds ⟨pdtIndex va, pdtIndex_lt va⟩ grown'.tables belongs (by simp) reached' smallWoG
    ensured''
  have walked : descend (tableBelow third.word) (third.root space) (walkPath va) = some pt := reached''
  intro path short
  have kept := grown''.tables.setLeaf_walk belongs (rfl : (walkPath va).length = 3) walked (walkIndex va) (pa ||| perm)
    belongs short
  have whole := ((adds.trans adds').trans adds'') path short
  refine (iff_of_eq (congrArg (· = none) kept)).trans (whole.trans ?_)
  simp [walkTables, walkPath]

/-- Mapping a page takes a frame for each missing table of its walk. -/
theorem mmuMapPage_frames (tables : PageTables frames member kernel) (belongs : member space) {va pa perm : Nat}
    (small : perm < pageSizeInBytes) (count : Nat) :
    ((mmuMapPage frames space va pa perm kernel).Gives fun mapped => frames.Supplies count mapped.2.env) ↔
      frames.Supplies (count + ((walkTables va).filter (kernel.Missing space)).card) kernel.env := by
  have smallWoG : perm &&& (2 ^ 64 - 1 - pageGlobal) < pageSizeInBytes := lt_of_le_of_lt Nat.and_le_left small
  have root : descend (tableBelow kernel.word) (kernel.root space) [] = some (kernel.root space) := rfl
  rw [walkTables_card, ← Nat.add_assoc, ← Nat.add_assoc]
  unfold mmuMapPage
  rw [Outcome.bind_gives]
  refine (Outcome.gives_congr ?_).trans (mmuEnsureTable_frames ⟨pml4eIndex va, pml4eIndex_lt va⟩ root _)
  rintro ⟨pdpt, first⟩ ensured
  obtain ⟨grown, reached⟩ := mmuEnsureTable_grows ⟨pml4eIndex va, pml4eIndex_lt va⟩ tables belongs (by decide) root
    smallWoG ensured
  have adds := mmuEnsureTable_adds ⟨pml4eIndex va, pml4eIndex_lt va⟩ tables belongs (by decide) root smallWoG ensured
  rw [Outcome.bind_gives]
  have second : first.Missing space ((walkPath va).take 2) ↔ kernel.Missing space ((walkPath va).take 2) := by
    rw [adds _ (by simp [walkPath])]
    simp [walkPath]
  simp only [← second]
  refine (Outcome.gives_congr ?_).trans (mmuEnsureTable_frames ⟨pdptIndex va, pdptIndex_lt va⟩ reached _)
  rintro ⟨pdt, middle⟩ ensured'
  obtain ⟨grown', reached'⟩ := mmuEnsureTable_grows ⟨pdptIndex va, pdptIndex_lt va⟩ grown.tables belongs (by simp)
    reached smallWoG ensured'
  have adds' := mmuEnsureTable_adds ⟨pdptIndex va, pdptIndex_lt va⟩ grown.tables belongs (by simp) reached smallWoG
    ensured'
  rw [Outcome.bind_gives]
  have third : middle.Missing space (walkPath va) ↔ kernel.Missing space (walkPath va) := by
    rw [(adds.trans adds') _ (by simp [walkPath])]
    simp [walkPath]
  simp only [← third]
  refine (Outcome.gives_congr ?_).trans (mmuEnsureTable_frames ⟨pdtIndex va, pdtIndex_lt va⟩ reached' _)
  rintro ⟨pt, last⟩ -
  exact Outcome.ok_gives

end

section
variable {alloc : KernelAllocator σ} {member : Nat → Prop} {kernel : Kernel σ}
  {space region flags start count steps : Nat} {overwrite : Nat → Panic}

/-- The mapping loop over a free window returns exactly when the frames last. -/
theorem vmmMapPages_returns (backing : Backing alloc.toFrameAllocator member kernel) (belongs : member space)
    (aligned : start % pageSizeInBytes = 0) (addressable : start + count * pageSizeInBytes < 2 ^ 64)
    (ends : (kernel.region region).vaStop = start + count * pageSizeInBytes) (valid : PageFlags flags)
    (free : WindowFree kernel space start (start + count * pageSizeInBytes)) (enough : count < steps) :
    (vmmMapPages alloc space region flags overwrite steps start kernel).Gives (fun _ => True) ↔
      alloc.Supplies (kernel.framesNeeded space (windowPages start count)) kernel.env := by
  induction count generalizing start kernel steps with
  | zero =>
      obtain ⟨steps, rfl⟩ := Nat.exists_eq_succ_of_ne_zero (Nat.ne_of_gt enough)
      rw [vmmMapPages, ends, if_neg (by omega)]
      exact Outcome.ok_gives
  | succ count ih =>
      obtain ⟨steps, rfl⟩ := Nat.exists_eq_succ_of_ne_zero (Nat.ne_of_gt (Nat.zero_lt_of_lt enough))
      have stop : start + (count + 1) * pageSizeInBytes = start + pageSizeInBytes + count * pageSizeInBytes := by
        rw [Nat.succ_mul]
        omega
      have inside : start < start + (count + 1) * pageSizeInBytes := by
        rw [stop]
        unfold pageSizeInBytes
        omega
      have noWrap : u64 (start + pageSizeInBytes) = start + pageSizeInBytes := Nat.mod_eq_of_lt (by omega)
      have next : (start + pageSizeInBytes) % pageSizeInBytes = 0 := by
        rw [Nat.add_mod_right]
        exact aligned
      rw [vmmMapPages, ends, if_pos inside, Outcome.bind_gives, windowPages, kernel.framesNeeded_cons]
      apply Outcome.gives_congr
      rintro ⟨pa, env⟩ returned
      have tables := (backing.xalloc returned).1.tables
      rw [Outcome.bind_gives]
      refine (Outcome.gives_congr ?_).trans (mmuMapPage_frames tables belongs valid.small _)
      rintro ⟨old, middle⟩ mapped
      obtain ⟨oldLeaf, first⟩ := PageTaken.of_map backing belongs valid returned mapped
      have empty : old = 0 := oldLeaf.trans (free.empty (.first aligned inside))
      have adds := mmuMapPage_adds tables belongs valid.small mapped
      have needed := adds.framesNeeded (windowPages (start + pageSizeInBytes) count)
      have same : Kernel.missingTables { kernel with env := env } space (windowPages (start + pageSizeInBytes) count) =
          kernel.missingTables space (windowPages (start + pageSizeInBytes) count) :=
        @Kernel.missingTables_congr _ kernel { kernel with env := env } space rfl rfl _
      rw [same] at needed
      simp only [empty, ne_eq, not_true_eq_false, if_false]
      rw [noWrap]
      rw [stop] at addressable ends free
      refine (ih first.taken.backing next addressable (by rw [first.taken.regions]; exact ends) ?_
        (Nat.lt_of_succ_lt_succ enough)).trans (iff_of_eq (congrArg (alloc.Supplies · middle.env) needed))
      exact free.later belongs aligned (stop ▸ inside) first

end

end B0s

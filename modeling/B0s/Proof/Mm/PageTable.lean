import B0s.Library.TableForest
import B0s.Construction.Mm.Mmu
import B0s.Proof.Machine

/-
This file proves that the page tables of all spaces form one forest and that a mapping changes
one leaf entry.
-/

namespace B0s
open TableForest

variable {σ : Type}

theorem dmP2V_lt (pa : Nat) : dmP2V pa < 2 ^ 64 := Nat.mod_lt _ (by decide)

theorem dmP2V_aligned {frame : Nat} (aligned : frame % pageSizeInBytes = 0) :
    dmP2V frame % pageSizeInBytes = 0 := by
  unfold dmP2V u64 higherHalfStart pageSizeInBytes at *
  omega

theorem dmP2V_injective {frame frame' : Nat} (bounded : frame < 2 ^ 64) (bounded' : frame' < 2 ^ 64)
    (same : dmP2V frame = dmP2V frame') : frame = frame' := by
  unfold dmP2V u64 higherHalfStart at same
  omega

/-- The permission bits of an entry do not change the table it leads to. -/
theorem entryTable_or {frame bits : Nat} (aligned : frame % pageSizeInBytes = 0)
    (small : bits < pageSizeInBytes) : entryTable (frame ||| bits) = dmP2V frame := by
  have sum : frame ||| bits = frame + bits := WordBits.or_low_bits 12 aligned small
  unfold entryTable
  rw [pageAddr_eq (dmP2V_lt _), sum]
  unfold dmP2V u64 higherHalfStart pageSizeInBytes at *
  omega

theorem or_present_and (frame bits : Nat) : (frame ||| pagePresent ||| bits) &&& pagePresent ≠ 0 := by
  intro zero
  have bit := congrArg (fun value => Nat.testBit value 0) zero
  simp [pagePresent] at bit

/-- The table below an index is absent until its entry is present. -/
def tableBelow (word : Nat → Nat) (table : Nat) (index : Fin 512) : Option Nat :=
  if word (entryAddr table index) &&& pagePresent = 0 then none
  else some (entryTable (word (entryAddr table index)))

/-- The root of a space is its page directory. -/
def Kernel.root (kernel : Kernel σ) (space : Nat) : Nat := (kernel.space space).pageDirectory

/-- The entry of a last-level table is zero when the table is absent. -/
def Kernel.leafAt (kernel : Kernel σ) (space : Nat) (path : List (Fin 512)) (index : Fin 512) : Nat :=
  match descend (tableBelow kernel.word) (kernel.root space) path with
  | none => 0
  | some table => kernel.word (entryAddr table index)

theorem Kernel.leafAt_of_none {kernel : Kernel σ} {space : Nat} {path : List (Fin 512)}
    (absent : descend (tableBelow kernel.word) (kernel.root space) path = none) (index : Fin 512) :
    kernel.leafAt space path index = 0 := by
  unfold Kernel.leafAt
  rw [absent]

theorem Kernel.leafAt_of_some {kernel : Kernel σ} {space table : Nat} {path : List (Fin 512)}
    (reached : descend (tableBelow kernel.word) (kernel.root space) path = some table)
    (index : Fin 512) : kernel.leafAt space path index = kernel.word (entryAddr table index) := by
  unfold Kernel.leafAt
  rw [reached]

/-- The table lies in a held frame of the direct mapping. -/
def Backed (frames : FrameAllocator σ) (env : σ) (table : Nat) : Prop :=
  ∃ frame, frames.held env frame ∧ frame % pageSizeInBytes = 0 ∧ frame < 2 ^ 64 ∧ table = dmP2V frame

/-- The tables of the member spaces form a forest in held frames. -/
structure PageTables (frames : FrameAllocator σ) (member : Nat → Prop) (kernel : Kernel σ) :
    Prop where
  forest : Forest (tableBelow kernel.word) member kernel.root 3
  backed : ∀ table, Reached (tableBelow kernel.word) member kernel.root 3 table →
    Backed frames kernel.env table

/-- The allocator state changes only through frame allocations. -/
inductive FrameAllocator.Grows (frames : FrameAllocator σ) : σ → σ → Prop where
  | refl (env : σ) : Grows frames env env
  | xalloc {start env env' : σ} {frame : Nat} (steps : Grows frames start env)
      (returned : frames.pmmXalloc env = .ok (frame, env')) : Grows frames start env'

theorem FrameAllocator.Grows.trans {frames : FrameAllocator σ} {first second third : σ}
    (one : frames.Grows first second) (two : frames.Grows second third) :
    frames.Grows first third := by
  induction two with
  | refl => exact one
  | xalloc _ returned ih => exact ih.xalloc returned

theorem FrameAllocator.Grows.held {frames : FrameAllocator σ} {first second : σ}
    (grows : frames.Grows first second) {frame : Nat} (before : frames.held first frame) :
    frames.held second frame := by
  induction grows with
  | refl => exact before
  | xalloc _ returned ih => exact (frames.xalloc_held _ _ _ returned frame).mpr (Or.inl ih)

theorem Backed.grows {frames : FrameAllocator σ} {env env' : σ} {table : Nat}
    (backed : Backed frames env table) (grows : frames.Grows env env') :
    Backed frames env' table := by
  obtain ⟨frame, held, rest⟩ := backed
  exact ⟨frame, grows.held held, rest⟩

theorem Backed.aligned {frames : FrameAllocator σ} {env : σ} {table : Nat}
    (backed : Backed frames env table) : table % pageSizeInBytes = 0 := by
  obtain ⟨frame, -, aligned, -, same⟩ := backed
  rw [same]
  exact dmP2V_aligned aligned

/-- Entries of aligned tables are the same word only for the same table and index. -/
theorem entryAddr_injective {table table' : Nat} {index index' : Fin 512}
    (aligned : table % pageSizeInBytes = 0) (aligned' : table' % pageSizeInBytes = 0)
    (same : entryAddr table index = entryAddr table' index') : table = table' ∧ index = index' := by
  unfold entryAddr pageSizeInBytes at *
  constructor
  · omega
  · apply Fin.ext
    omega

/-- A cleared page holds only zero entries. -/
theorem clearPage_entry (kernel : Kernel σ) (table : Nat) (index : Fin 512) :
    (kernel.clearPage table).word (entryAddr table index) = 0 := by
  have inside : table ≤ entryAddr table index ∧ entryAddr table index < table + pageSizeInBytes := by
    unfold entryAddr pageSizeInBytes
    omega
  simp only [Kernel.clearPage]
  rw [if_pos inside]

/-- Clearing a page keeps the entries of every other table. -/
theorem clearPage_other (kernel : Kernel σ) {table other : Nat} (index : Fin 512)
    (aligned : table % pageSizeInBytes = 0) (aligned' : other % pageSizeInBytes = 0)
    (different : other ≠ table) :
    (kernel.clearPage table).word (entryAddr other index) = kernel.word (entryAddr other index) := by
  have outside : ¬(table ≤ entryAddr other index ∧
      entryAddr other index < table + pageSizeInBytes) := by
    unfold entryAddr pageSizeInBytes at *
    omega
  simp only [Kernel.clearPage]
  rw [if_neg outside]

@[simp] theorem setWord_self (kernel : Kernel σ) (addr value : Nat) :
    (kernel.setWord addr value).word addr = value :=
  Function.update_self _ _ _

/-- A word write changes one entry among the aligned tables. -/
theorem setWord_entry (kernel : Kernel σ) {table other : Nat} {slot index : Fin 512} (value : Nat)
    (aligned : table % pageSizeInBytes = 0) (aligned' : other % pageSizeInBytes = 0)
    (different : ¬(other = table ∧ index = slot)) :
    (kernel.setWord (entryAddr table slot) value).word (entryAddr other index) =
      kernel.word (entryAddr other index) := by
  simp only [Kernel.setWord]
  apply Function.update_of_ne
  intro same
  exact different (entryAddr_injective aligned' aligned same)

/-- A call may add tables, and it keeps the leaf entries of every space. -/
structure TablesGrow (frames : FrameAllocator σ) (member : Nat → Prop) (kernel kernel' : Kernel σ) :
    Prop where
  regions : kernel'.region = kernel.region
  spaces : kernel'.space = kernel.space
  env : frames.Grows kernel.env kernel'.env
  tables : PageTables frames member kernel'
  fresh : ∀ table, Reached (tableBelow kernel'.word) member kernel'.root 3 table →
    Reached (tableBelow kernel.word) member kernel.root 3 table ∨ ¬Backed frames kernel.env table
  leaf : ∀ {space path}, member space → path.length = 3 → ∀ index,
    kernel'.leafAt space path index = kernel.leafAt space path index
  descend : ∀ {space path table}, member space → path.length ≤ 3 →
    descend (tableBelow kernel.word) (kernel.root space) path = some table →
    descend (tableBelow kernel'.word) (kernel'.root space) path = some table

theorem TablesGrow.refl {frames : FrameAllocator σ} {member : Nat → Prop} {kernel : Kernel σ}
    (tables : PageTables frames member kernel) : TablesGrow frames member kernel kernel :=
  ⟨rfl, rfl, .refl _, tables, fun _ reached => Or.inl reached, fun _ _ _ => rfl,
    fun _ _ reached => reached⟩

theorem TablesGrow.trans {frames : FrameAllocator σ} {member : Nat → Prop}
    {first second third : Kernel σ} (one : TablesGrow frames member first second)
    (two : TablesGrow frames member second third) : TablesGrow frames member first third where
  regions := two.regions.trans one.regions
  spaces := two.spaces.trans one.spaces
  env := one.env.trans two.env
  tables := two.tables
  fresh table reached := by
    rcases two.fresh table reached with old | new
    · exact one.fresh table old
    · exact Or.inr fun backed => new (backed.grows one.env)
  leaf belongs length index := (two.leaf belongs length index).trans (one.leaf belongs length index)
  descend belongs length reached := two.descend belongs length (one.descend belongs length reached)

/-- A call hangs a cleared page into one entry. -/
def Kernel.hangTable (kernel : Kernel σ) (env : σ) (entry new value : Nat) : Kernel σ :=
  ({ kernel with env := env }.clearPage new).setWord entry value

@[simp] theorem Kernel.hangTable_root (kernel : Kernel σ) (env : σ) (entry new value : Nat) :
    (kernel.hangTable env entry new value).root = kernel.root := rfl

/-- The allocator gives out a page that is no table yet. -/
structure NewTable (frames : FrameAllocator σ) (env env' : σ) (new : Nat) : Prop where
  grows : frames.Grows env env'
  fresh : ¬Backed frames env new
  backed : Backed frames env' new

theorem xalloc_newTable {frames : FrameAllocator σ} {env env' : σ} {frame : Nat}
    (returned : frames.pmmXalloc env = .ok (frame, env')) :
    NewTable frames env env' (dmP2V frame) := by
  have aligned := frames.xalloc_aligned _ _ _ returned
  refine ⟨(FrameAllocator.Grows.refl _).xalloc returned, ?_, ?_⟩
  · rintro ⟨other, held, -, bounded, same⟩
    have equal := dmP2V_injective aligned.2 bounded same
    exact frames.xalloc_fresh _ _ _ returned (equal ▸ held)
  · have held := (frames.xalloc_held _ _ _ returned frame).mpr (Or.inr rfl)
    exact ⟨frame, held, aligned.1, aligned.2, rfl⟩

section Ensure
variable {frames : FrameAllocator σ} {member : Nat → Prop} {kernel : Kernel σ} {space : Nat}
  {stem : List (Fin 512)} {table new value : Nat} {slot : Fin 512} {env : σ}

/-- The entries of a new table are zero. -/
theorem Kernel.hangTable_new (kernel : Kernel σ) (env : σ) (index : Fin 512)
    (aligned : table % pageSizeInBytes = 0) (aligned' : new % pageSizeInBytes = 0)
    (different : new ≠ table) :
    (kernel.hangTable env (entryAddr table slot) new value).word (entryAddr new index) = 0 := by
  unfold Kernel.hangTable
  rw [setWord_entry _ _ aligned aligned' fun same => different same.1]
  exact clearPage_entry _ _ _

/-- A new table changes only its own entries and the entry that leads to it. -/
theorem Kernel.hangTable_other (kernel : Kernel σ) (env : σ) (value : Nat) {other : Nat}
    {index : Fin 512} (aligned : table % pageSizeInBytes = 0) (aligned' : new % pageSizeInBytes = 0)
    (otherAligned : other % pageSizeInBytes = 0) (different : other ≠ new)
    (elsewhere : ¬(other = table ∧ index = slot)) :
    (kernel.hangTable env (entryAddr table slot) new value).word (entryAddr other index) =
      kernel.word (entryAddr other index) := by
  unfold Kernel.hangTable
  rw [setWord_entry _ _ aligned otherAligned elsewhere]
  exact clearPage_other _ index aligned' otherAligned different

/-- A table at the full depth is no table above it. -/
theorem PageTables.ne_of_shorter (tables : PageTables frames member kernel) {space' : Nat}
    {path : List (Fin 512)} {other : Nat} (belongs : member space) (belongs' : member space')
    (short : stem.length < 3) (length : path.length = 3)
    (reached : descend (tableBelow kernel.word) (kernel.root space) stem = some table)
    (reached' : descend (tableBelow kernel.word) (kernel.root space') path = some other) :
    other ≠ table := by
  intro same
  have equal := (tables.forest.unique belongs belongs' (by omega) (by omega) reached
    (same ▸ reached')).2
  rw [equal] at short
  omega

/-- A page hangs in an absent entry of a reached table, and the entry leads to it. -/
structure Hangs (frames : FrameAllocator σ) (member : Nat → Prop) (kernel : Kernel σ) (env : σ)
    (space : Nat) (stem : List (Fin 512)) (table : Nat) (slot : Fin 512) (new value : Nat) : Prop where
  belongs : member space
  short : stem.length < 3
  reached : descend (tableBelow kernel.word) (kernel.root space) stem = some table
  absent : kernel.word (entryAddr table slot) &&& pagePresent = 0
  fresh : NewTable frames kernel.env env new
  present : value &&& pagePresent ≠ 0
  leads : entryTable value = new

theorem Hangs.backed (hangs : Hangs frames member kernel env space stem table slot new value)
    (tables : PageTables frames member kernel) : Backed frames kernel.env table :=
  tables.backed table ⟨space, stem, hangs.belongs, le_of_lt hangs.short, hangs.reached⟩

theorem Hangs.different (hangs : Hangs frames member kernel env space stem table slot new value)
    (tables : PageTables frames member kernel) : new ≠ table :=
  fun same => hangs.fresh.fresh (same ▸ hangs.backed tables)

/-- A new table is a graft of the forest. -/
theorem Hangs.graft (hangs : Hangs frames member kernel env space stem table slot new value)
    (tables : PageTables frames member kernel) :
    Graft (tableBelow kernel.word)
      (tableBelow (kernel.hangTable env (entryAddr table slot) new value).word) member
      kernel.root 3 space stem table slot new := by
  have tableBacked := hangs.backed tables
  have newAligned := hangs.fresh.backed.aligned
  refine ⟨hangs.belongs, hangs.short, hangs.reached, ?_, ?_, ?_, ?_, ?_⟩
  · simp [tableBelow, hangs.absent]
  · exact fun old => hangs.fresh.fresh (tables.backed _ old)
  · unfold tableBelow Kernel.hangTable
    rw [setWord_self, if_neg hangs.present, hangs.leads]
  · intro index
    simp [tableBelow, kernel.hangTable_new env index tableBacked.aligned newAligned
      (hangs.different tables)]
  · intro other old distinct index elsewhere
    have otherAligned := (tables.backed other old).aligned
    have same := kernel.hangTable_other env value tableBacked.aligned newAligned otherAligned distinct
      elsewhere
    unfold tableBelow
    rw [same]

/-- A new table keeps every entry but the one that leads to it. -/
theorem Hangs.entryAt (hangs : Hangs frames member kernel env space stem table slot new value)
    (tables : PageTables frames member kernel) {space' : Nat} {path : List (Fin 512)} {index : Fin 512}
    (belongs : member space') (bound : path.length ≤ 3)
    (elsewhere : ¬(space' = space ∧ path = stem ∧ index = slot)) :
    (kernel.hangTable env (entryAddr table slot) new value).leafAt space' path index =
      kernel.leafAt space' path index := by
  have graft := hangs.graft tables
  have tableAligned := (hangs.backed tables).aligned
  have newAligned := hangs.fresh.backed.aligned
  by_cases passes : space' = space ∧ stem ++ [slot] <+: path
  · obtain ⟨rfl, rest, rfl⟩ := passes
    rw [Kernel.leafAt_of_none (graft.descend_before rest)]
    cases rest with
    | nil =>
        have below := graft.descend_new tables.forest
        rw [List.append_nil, Kernel.leafAt_of_some below]
        exact kernel.hangTable_new env index tableAligned newAligned (hangs.different tables)
    | cons next rest =>
        exact Kernel.leafAt_of_none (graft.descend_below tables.forest next rest) index
  · have same := graft.descend_other tables.forest belongs bound passes
    cases found : descend (tableBelow kernel.word) (kernel.root space') path with
    | none =>
        rw [Kernel.leafAt_of_none found]
        exact Kernel.leafAt_of_none (same.trans found) index
    | some other =>
        have old := tables.backed other ⟨space', path, belongs, bound, found⟩
        have distinct : other ≠ new := fun same => hangs.fresh.fresh (same ▸ old)
        rw [Kernel.leafAt_of_some found, Kernel.leafAt_of_some (same.trans found)]
        apply kernel.hangTable_other env value tableAligned newAligned old.aligned distinct
        rintro ⟨rfl, sameIndex⟩
        obtain ⟨sameSpace, samePath⟩ := tables.forest.unique belongs hangs.belongs bound
          (le_of_lt hangs.short) found hangs.reached
        exact elsewhere ⟨sameSpace, samePath, sameIndex⟩

/-- The entry of a new table holds the value that leads to it. -/
theorem Hangs.entryAt_self (hangs : Hangs frames member kernel env space stem table slot new value)
    (tables : PageTables frames member kernel) :
    (kernel.hangTable env (entryAddr table slot) new value).leafAt space stem slot = value := by
  have avoids : ¬(space = space ∧ stem ++ [slot] <+: stem) := by
    intro passes
    have length := passes.2.length_le
    simp at length
  have reached := ((hangs.graft tables).descend_other tables.forest hangs.belongs
    (le_of_lt hangs.short) avoids).trans hangs.reached
  rw [Kernel.leafAt_of_some reached]
  exact setWord_self _ _ _

/-- A new table keeps the invariant. -/
theorem Hangs.grows (hangs : Hangs frames member kernel env space stem table slot new value)
    (tables : PageTables frames member kernel) :
    TablesGrow frames member kernel (kernel.hangTable env (entryAddr table slot) new value) := by
  have graft := hangs.graft tables
  refine ⟨rfl, rfl, hangs.fresh.grows, ⟨graft.forest tables.forest, ?_⟩, ?_, ?_, ?_⟩
  · rintro other ⟨space', path, belongs, bound, found⟩
    rcases graft.descend_cases tables.forest belongs bound found with ⟨-, -, rfl⟩ | ⟨old, -⟩
    · exact hangs.fresh.backed
    · exact (tables.backed other ⟨space', path, belongs, bound, old⟩).grows hangs.fresh.grows
  · rintro other ⟨space', path, belongs, bound, found⟩
    rcases graft.descend_cases tables.forest belongs bound found with ⟨-, -, rfl⟩ | ⟨old, -⟩
    · exact Or.inr hangs.fresh.fresh
    · exact Or.inl ⟨space', path, belongs, bound, old⟩
  · intro space' path belongs length index
    apply hangs.entryAt tables belongs (le_of_eq length)
    rintro ⟨-, rfl, -⟩
    exact absurd length (ne_of_lt hangs.short)
  · intro space' path other belongs bound found
    refine (graft.descend_other tables.forest belongs bound ?_).trans found
    rintro ⟨rfl, rest, rfl⟩
    rw [graft.descend_before] at found
    cases found

theorem Hangs.descend_new (hangs : Hangs frames member kernel env space stem table slot new value)
    (tables : PageTables frames member kernel) :
    descend (tableBelow (kernel.hangTable env (entryAddr table slot) new value).word)
      ((kernel.hangTable env (entryAddr table slot) new value).root space) (stem ++ [slot]) =
        some new :=
  (hangs.graft tables).descend_new tables.forest

/-- A missing table is hung into its entry, and a table that exists is entered. -/
theorem mmuEnsureTable_cases (slot : Fin 512) (belongs : member space) (short : stem.length < 3)
    (reached : descend (tableBelow kernel.word) (kernel.root space) stem = some table)
    {permWoG : Nat} (small : permWoG < pageSizeInBytes) {below : Nat} {kernel' : Kernel σ}
    (ensured : mmuEnsureTable frames (entryAddr table slot) permWoG kernel = .ok (below, kernel')) :
    (∃ env value, Hangs frames member kernel env space stem table slot below value ∧
      kernel' = kernel.hangTable env (entryAddr table slot) below value) ∨
    descend (tableBelow kernel.word) (kernel.root space) (stem ++ [slot]) = some below ∧ kernel' = kernel := by
  unfold mmuEnsureTable at ensured
  split_ifs at ensured with absent
  · obtain ⟨⟨frame, env⟩, returned, final⟩ := Outcome.bind_eq_ok.mp ensured
    obtain ⟨same, hung⟩ := Prod.mk.inj (Except.ok.inj final)
    have grown : kernel.hangTable env (entryAddr table slot) (dmP2V frame)
        (frame ||| pagePresent ||| permWoG) = kernel' := hung
    have leads : entryTable (frame ||| pagePresent ||| permWoG) = dmP2V frame := by
      rw [Nat.or_assoc, entryTable_or (frames.xalloc_aligned _ _ _ returned).1]
      exact Nat.or_lt_two_pow (by decide : pagePresent < 2 ^ 12) small
    rw [setWord_self, leads] at same
    rw [← same, ← grown]
    exact Or.inl ⟨env, _,
      ⟨belongs, short, reached, absent, xalloc_newTable returned, or_present_and _ _, leads⟩, rfl⟩
  · obtain ⟨rfl, rfl⟩ := Prod.mk.inj (Except.ok.inj ensured)
    refine Or.inr ⟨?_, rfl⟩
    rw [descend_concat, reached]
    simp [tableBelow, absent]

/-- The next table of a walk exists after `mmu_map_page` has ensured it. -/
theorem mmuEnsureTable_grows (slot : Fin 512) (tables : PageTables frames member kernel)
    (belongs : member space) (short : stem.length < 3)
    (reached : descend (tableBelow kernel.word) (kernel.root space) stem = some table)
    {permWoG : Nat} (small : permWoG < pageSizeInBytes) {below : Nat} {kernel' : Kernel σ}
    (ensured : mmuEnsureTable frames (entryAddr table slot) permWoG kernel = .ok (below, kernel')) :
    TablesGrow frames member kernel kernel' ∧
      descend (tableBelow kernel'.word) (kernel'.root space) (stem ++ [slot]) = some below := by
  rcases mmuEnsureTable_cases slot belongs short reached small ensured with ⟨env, value, hangs, rfl⟩ | ⟨entered, rfl⟩
  · exact ⟨hangs.grows tables, hangs.descend_new tables⟩
  · exact ⟨.refl tables, entered⟩

end Ensure

theorem pml4eIndex_lt (va : Nat) : pml4eIndex va < 512 :=
  Nat.lt_of_le_of_lt Nat.and_le_right (by decide)

theorem pdptIndex_lt (va : Nat) : pdptIndex va < 512 :=
  Nat.lt_of_le_of_lt Nat.and_le_right (by decide)

theorem pdtIndex_lt (va : Nat) : pdtIndex va < 512 :=
  Nat.lt_of_le_of_lt Nat.and_le_right (by decide)

theorem ptIndex_lt (va : Nat) : ptIndex va < 512 :=
  Nat.lt_of_le_of_lt Nat.and_le_right (by decide)

/-- The first three indices of an address lead to its last-level table. -/
def walkPath (va : Nat) : List (Fin 512) :=
  [⟨pml4eIndex va, pml4eIndex_lt va⟩, ⟨pdptIndex va, pdptIndex_lt va⟩, ⟨pdtIndex va, pdtIndex_lt va⟩]

def walkIndex (va : Nat) : Fin 512 := ⟨ptIndex va, ptIndex_lt va⟩

/-- A page address is canonical when its high bits copy bit 47. -/
structure CanonicalPage (va : Nat) : Prop where
  aligned : va % pageSizeInBytes = 0
  half : va < 2 ^ 47 ∨ 2 ^ 64 - 2 ^ 47 ≤ va
  bounded : va < 2 ^ 64

/-- The four indices determine a canonical page. -/
theorem CanonicalPage.walk_injective {va va' : Nat} (page : CanonicalPage va)
    (page' : CanonicalPage va') (path : walkPath va = walkPath va')
    (index : walkIndex va = walkIndex va') : va = va' := by
  have aligned := page.aligned
  have aligned' := page'.aligned
  have half := page.half
  have half' := page'.half
  have bounded := page.bounded
  have bounded' := page'.bounded
  have mask : ∀ value, value &&& 0x1ff = value % 512 := fun value =>
    Nat.and_two_pow_sub_one_eq_mod value 9
  simp only [walkPath, walkIndex, List.cons.injEq, Fin.mk.injEq, pml4eIndex, pdptIndex, pdtIndex,
    ptIndex, Nat.shiftRight_eq_div_pow, and_true, mask] at path index
  unfold pageSizeInBytes at aligned aligned'
  omega

/-- The walk of `mmu_translate_4k` ends at a leaf entry, which is zero while a table is missing. -/
def mmuLeaf (space va : Nat) (kernel : Kernel σ) : Nat :=
  let pml4eEntry := kernel.word (entryAddr (kernel.root space) (pml4eIndex va))
  if pml4eEntry &&& pagePresent = 0 then 0
  else
    let pdptEntry := kernel.word (entryAddr (entryTable pml4eEntry) (pdptIndex va))
    if pdptEntry &&& pagePresent = 0 then 0
    else
      let pdtEntry := kernel.word (entryAddr (entryTable pdptEntry) (pdtIndex va))
      if pdtEntry &&& pagePresent = 0 then 0
      else kernel.word (entryAddr (entryTable pdtEntry) (ptIndex va))

theorem mmuLeaf_eq (kernel : Kernel σ) (space va : Nat) :
    mmuLeaf space va kernel = kernel.leafAt space (walkPath va) (walkIndex va) := by
  simp only [mmuLeaf, Kernel.leafAt, walkPath, walkIndex, descend, tableBelow]
  split_ifs <;> simp_all

/-- The translation of a mapped page is the frame of its leaf entry. -/
theorem mmuTranslate4k_eq {kernel : Kernel σ} {space va : Nat}
    (aligned : va % pageSizeInBytes = 0) (mapped : mmuLeaf space va kernel ≠ 0) :
    mmuTranslate4k (kernel.root space) va kernel = pageAddr (mmuLeaf space va kernel) := by
  have offset : va &&& (pageSizeInBytes - 1) = 0 :=
    (Nat.and_two_pow_sub_one_eq_mod va 12).trans aligned
  unfold mmuTranslate4k mmuLeaf at *
  simp only at *
  split_ifs at * with first second third
  · exact absurd rfl mapped
  · exact absurd rfl mapped
  · exact absurd rfl mapped
  · rw [offset, Nat.or_zero]

/-- A call sets one leaf entry, may add tables, and keeps every other leaf entry. -/
structure LeafSet (frames : FrameAllocator σ) (member : Nat → Prop) (kernel kernel' : Kernel σ)
    (space va value : Nat) : Prop where
  regions : kernel'.region = kernel.region
  spaces : kernel'.space = kernel.space
  env : frames.Grows kernel.env kernel'.env
  tables : PageTables frames member kernel'
  fresh : ∀ table, Reached (tableBelow kernel'.word) member kernel'.root 3 table →
    Reached (tableBelow kernel.word) member kernel.root 3 table ∨ ¬Backed frames kernel.env table
  self : mmuLeaf space va kernel' = value
  other : ∀ {space' va'}, member space' → CanonicalPage va' → ¬(space' = space ∧ va' = va) →
    mmuLeaf space' va' kernel' = mmuLeaf space' va' kernel

theorem TablesGrow.mmuLeaf {frames : FrameAllocator σ} {member : Nat → Prop}
    {kernel kernel' : Kernel σ} (grows : TablesGrow frames member kernel kernel') {space va : Nat}
    (belongs : member space) : mmuLeaf space va kernel' = mmuLeaf space va kernel := by
  rw [mmuLeaf_eq, mmuLeaf_eq]
  exact grows.leaf belongs rfl _

/-- A leaf entry may be set after the tables have grown. -/
theorem LeafSet.after {frames : FrameAllocator σ} {member : Nat → Prop}
    {kernel middle kernel' : Kernel σ} {space va value : Nat}
    (set : LeafSet frames member middle kernel' space va value)
    (grows : TablesGrow frames member kernel middle) :
    LeafSet frames member kernel kernel' space va value where
  regions := set.regions.trans grows.regions
  spaces := set.spaces.trans grows.spaces
  env := grows.env.trans set.env
  tables := set.tables
  fresh table reached := by
    rcases set.fresh table reached with old | new
    · exact grows.fresh table old
    · exact Or.inr fun backed => new (backed.grows grows.env)
  self := set.self
  other belongs page different := (set.other belongs page different).trans (grows.mmuLeaf belongs)

section Map
variable {frames : FrameAllocator σ} {member : Nat → Prop} {kernel kernel' : Kernel σ} {space : Nat}

/-- A write to a last-level table keeps the entries of the tables above it. -/
theorem PageTables.setLeaf_descend (tables : PageTables frames member kernel)
    (belongs : member space) {path : List (Fin 512)} (length : path.length = 3) {table : Nat}
    (reached : descend (tableBelow kernel.word) (kernel.root space) path = some table)
    (index : Fin 512) (value : Nat) {space' : Nat} {path' : List (Fin 512)} {above : Nat}
    (belongs' : member space') (short : path'.length < 3)
    (found : descend (tableBelow kernel.word) (kernel.root space') path' = some above)
    (index' : Fin 512) :
    tableBelow (kernel.setWord (entryAddr table index) value).word above index' =
      tableBelow kernel.word above index' := by
  have different := tables.ne_of_shorter belongs' belongs short length found reached
  have aligned := (tables.backed table ⟨space, path, belongs, le_of_eq length, reached⟩).aligned
  have aligned' := (tables.backed above ⟨space', path', belongs', le_of_lt short, found⟩).aligned
  unfold tableBelow
  rw [setWord_entry _ _ aligned aligned' fun same => different same.1.symm]

/-- A write to a last-level table keeps every descent. -/
theorem PageTables.setLeaf_walk (tables : PageTables frames member kernel)
    (belongs : member space) {path : List (Fin 512)} (length : path.length = 3) {table : Nat}
    (reached : descend (tableBelow kernel.word) (kernel.root space) path = some table)
    (index : Fin 512) (value : Nat) {space' : Nat} {path' : List (Fin 512)} (belongs' : member space')
    (short : path'.length ≤ 3) :
    descend (tableBelow (kernel.setWord (entryAddr table index) value).word) (kernel.root space') path' =
      descend (tableBelow kernel.word) (kernel.root space') path' :=
  descend_congr belongs' short (tables.setLeaf_descend belongs length reached index value)

/-- A write to a last-level table sets one leaf entry. -/
theorem PageTables.setLeaf (tables : PageTables frames member kernel) (belongs : member space)
    {va table : Nat} (page : CanonicalPage va)
    (reached : descend (tableBelow kernel.word) (kernel.root space) (walkPath va) = some table)
    (value : Nat) :
    LeafSet frames member kernel (kernel.setWord (entryAddr table (walkIndex va)) value) space va
      value := by
  have kept : ∀ {space' path}, member space' → path.length ≤ 3 →
      descend (tableBelow (kernel.setWord (entryAddr table (walkIndex va)) value).word)
        (kernel.root space') path = descend (tableBelow kernel.word) (kernel.root space') path :=
    fun belongs' short => tables.setLeaf_walk belongs rfl reached _ _ belongs' short
  have same : ∀ other, Reached (tableBelow (kernel.setWord (entryAddr table (walkIndex va)) value).word)
      member kernel.root 3 other → Reached (tableBelow kernel.word) member kernel.root 3 other := by
    rintro other ⟨space', path, belongs', short, found⟩
    exact ⟨space', path, belongs', short, (kept belongs' short).symm.trans found⟩
  have aligned := (tables.backed table ⟨space, walkPath va, belongs, le_rfl, reached⟩).aligned
  refine ⟨rfl, rfl, .refl _, ⟨?_, fun other found => tables.backed other (same other found)⟩,
    fun other found => Or.inl (same other found), ?_, ?_⟩
  · exact tables.forest.transport (tables.setLeaf_descend belongs rfl reached _ _)
  · rw [mmuLeaf_eq, Kernel.leafAt_of_some ((kept belongs le_rfl).trans reached)]
    exact setWord_self _ _ _
  · intro space' va' belongs' page' different
    rw [mmuLeaf_eq, mmuLeaf_eq]
    have path := kept belongs' (le_refl (walkPath va').length)
    cases found : descend (tableBelow kernel.word) (kernel.root space') (walkPath va') with
    | none =>
        rw [Kernel.leafAt_of_none found]
        exact Kernel.leafAt_of_none (path.trans found) _
    | some other =>
        rw [Kernel.leafAt_of_some found, Kernel.leafAt_of_some (path.trans found)]
        have aligned' := (tables.backed other ⟨space', _, belongs', le_rfl, found⟩).aligned
        apply setWord_entry _ _ aligned aligned'
        rintro ⟨rfl, sameIndex⟩
        obtain ⟨sameSpace, samePath⟩ :=
          tables.forest.unique belongs' belongs le_rfl le_rfl found reached
        exact different ⟨sameSpace, page'.walk_injective page samePath sameIndex⟩

/-- Mapping a page returns its old leaf entry and sets the new one. -/
theorem mmuMapPage_leafSet (tables : PageTables frames member kernel) (belongs : member space)
    {va pa perm : Nat} (page : CanonicalPage va) (small : perm < pageSizeInBytes) {ret : Nat}
    (mapped : mmuMapPage frames space va pa perm kernel = .ok (ret, kernel')) :
    ret = mmuLeaf space va kernel ∧
      LeafSet frames member kernel kernel' space va (pa ||| perm) := by
  have smallWoG : perm &&& (2 ^ 64 - 1 - pageGlobal) < pageSizeInBytes :=
    lt_of_le_of_lt Nat.and_le_left small
  unfold mmuMapPage at mapped
  obtain ⟨⟨pdpt, first⟩, ensured, mapped⟩ := Outcome.bind_eq_ok.mp mapped
  obtain ⟨⟨pdt, second⟩, ensured', mapped⟩ := Outcome.bind_eq_ok.mp mapped
  obtain ⟨⟨pt, third⟩, ensured'', mapped⟩ := Outcome.bind_eq_ok.mp mapped
  obtain ⟨rfl, rfl⟩ := Prod.mk.inj (Except.ok.inj mapped)
  have root : descend (tableBelow kernel.word) (kernel.root space) [] = some (kernel.root space) := rfl
  obtain ⟨grown, reached⟩ := mmuEnsureTable_grows ⟨pml4eIndex va, pml4eIndex_lt va⟩ tables belongs
    (by decide) root smallWoG ensured
  obtain ⟨grown', reached'⟩ := mmuEnsureTable_grows ⟨pdptIndex va, pdptIndex_lt va⟩ grown.tables
    belongs (by simp) reached smallWoG ensured'
  obtain ⟨grown'', reached''⟩ := mmuEnsureTable_grows ⟨pdtIndex va, pdtIndex_lt va⟩ grown'.tables
    belongs (by simp) reached' smallWoG ensured''
  have grows := (grown.trans grown').trans grown''
  have walked : descend (tableBelow third.word) (third.root space) (walkPath va) = some pt := reached''
  have written := grows.tables.setLeaf belongs page walked (pa ||| perm)
  refine ⟨?_, written.after grows⟩
  rw [← grows.mmuLeaf belongs, mmuLeaf_eq, Kernel.leafAt_of_some walked]
  rfl

end Map

section Init
variable {frames : FrameAllocator σ} {member member' : Nat → Prop} {kernel kernel' : Kernel σ}
  {space : Nat}

/-- A space gets a cleared page as its root. -/
def Kernel.plantRoot (kernel : Kernel σ) (env : σ) (space new : Nat) : Kernel σ :=
  { kernel with
    env := env
    space := Function.update kernel.space space
      { kernel.space space with pageDirectory := new } }.clearPage new

/-- A new root is planted into the forest. -/
theorem PageTables.planting {env : σ} {new : Nat} (tables : PageTables frames member kernel)
    (fresh : NewTable frames kernel.env env new)
    (only : ∀ other, member' other → other ≠ space → member other) :
    Planting (tableBelow kernel.word) (tableBelow (kernel.plantRoot env space new).word) member
      member' kernel.root (kernel.plantRoot env space new).root 3 space new := by
  refine ⟨fun old => fresh.fresh (tables.backed _ old), ?_, ?_, ?_, ?_⟩
  · simp [Kernel.root, Kernel.plantRoot, Kernel.clearPage]
  · intro other belongs different
    refine ⟨only other belongs different, ?_⟩
    simp [Kernel.root, Kernel.plantRoot, Kernel.clearPage, different]
  · intro index
    unfold tableBelow Kernel.plantRoot
    rw [clearPage_entry]
    simp
  · intro other old different index
    unfold tableBelow Kernel.plantRoot
    rw [clearPage_other _ index fresh.backed.aligned (tables.backed other old).aligned different]

/-- All entries of a new root are zero, and no table is below it. -/
theorem PageTables.plantRoot_self {env : σ} {new : Nat} (tables : PageTables frames member kernel)
    (fresh : NewTable frames kernel.env env new)
    (only : ∀ other, member' other → other ≠ space → member other) (path : List (Fin 512)) (index : Fin 512) :
    (kernel.plantRoot env space new).leafAt space path index = 0 := by
  have planting := tables.planting fresh only
  cases path with
  | nil =>
      have root : (kernel.plantRoot env space new).root space = new := planting.planted
      rw [Kernel.leafAt_of_some (descend_nil _ _), root]
      exact clearPage_entry _ _ _
  | cons next rest => exact Kernel.leafAt_of_none (planting.descend_below next rest) index

/-- A new root keeps the entries of the other spaces. -/
theorem PageTables.plantRoot_other {env : σ} {new : Nat} (tables : PageTables frames member kernel)
    (fresh : NewTable frames kernel.env env new)
    (only : ∀ other, member' other → other ≠ space → member other) {space' : Nat} {path : List (Fin 512)}
    (belongs : member' space') (different : space' ≠ space) (bound : path.length ≤ 3) (index : Fin 512) :
    (kernel.plantRoot env space new).leafAt space' path index = kernel.leafAt space' path index := by
  have same := (tables.planting fresh only).descend_other belongs different bound
  cases found : descend (tableBelow kernel.word) (kernel.root space') path with
  | none =>
      rw [Kernel.leafAt_of_none found]
      exact Kernel.leafAt_of_none (same.trans found) _
  | some table =>
      have old := tables.backed table ⟨space', _, only _ belongs different, bound, found⟩
      rw [Kernel.leafAt_of_some found, Kernel.leafAt_of_some (same.trans found)]
      exact clearPage_other _ _ fresh.backed.aligned old.aligned fun same => fresh.fresh (same ▸ old)

/-- A call gives one space an empty forest and keeps the leaf entries of the others. -/
structure RootSet (frames : FrameAllocator σ) (member member' : Nat → Prop)
    (kernel kernel' : Kernel σ) (space : Nat) : Prop where
  regions : kernel'.region = kernel.region
  spaces : ∀ other, other ≠ space → kernel'.space other = kernel.space other
  list : (kernel'.space space).region = (kernel.space space).region
  env : frames.Grows kernel.env kernel'.env
  tables : PageTables frames member' kernel'
  fresh : ∀ table, Reached (tableBelow kernel'.word) member' kernel'.root 3 table →
    Reached (tableBelow kernel.word) member kernel.root 3 table ∨ ¬Backed frames kernel.env table
  self : ∀ va, mmuLeaf space va kernel' = 0
  other : ∀ {space' va}, member' space' → space' ≠ space →
    mmuLeaf space' va kernel' = mmuLeaf space' va kernel

theorem PageTables.plantRoot {env : σ} {new : Nat} (tables : PageTables frames member kernel)
    (fresh : NewTable frames kernel.env env new)
    (only : ∀ other, member' other → other ≠ space → member other) :
    RootSet frames member member' kernel (kernel.plantRoot env space new) space := by
  have planting := tables.planting fresh only
  refine ⟨rfl, ?_, ?_, fresh.grows, ⟨planting.forest tables.forest, ?_⟩, ?_, ?_, ?_⟩
  · intro other different
    simp [Kernel.plantRoot, Kernel.clearPage, different]
  · simp [Kernel.plantRoot, Kernel.clearPage]
  · rintro table ⟨space', path, belongs, short, reached⟩
    rcases planting.descend_cases belongs short reached with ⟨-, -, rfl⟩ | ⟨belongs', old, -⟩
    · exact fresh.backed
    · exact (tables.backed table ⟨space', path, belongs', short, old⟩).grows fresh.grows
  · rintro table ⟨space', path, belongs, short, reached⟩
    rcases planting.descend_cases belongs short reached with ⟨-, -, rfl⟩ | ⟨belongs', old, -⟩
    · exact Or.inr fresh.fresh
    · exact Or.inl ⟨space', path, belongs', short, old⟩
  · intro va
    rw [mmuLeaf_eq]
    exact tables.plantRoot_self fresh only _ _
  · intro space' va belongs different
    rw [mmuLeaf_eq, mmuLeaf_eq]
    exact tables.plantRoot_other fresh only belongs different le_rfl _

/-- The initialisation gives a space an empty page table. -/
theorem mmuInit_rootSet (tables : PageTables frames member kernel)
    (only : ∀ other, member' other → other ≠ space → member other)
    (done : mmuInit frames space kernel = .ok kernel') :
    RootSet frames member member' kernel kernel' space := by
  unfold mmuInit at done
  obtain ⟨⟨frame, env⟩, returned, done⟩ := Outcome.bind_eq_ok.mp done
  have planted : kernel.plantRoot env space (dmP2V frame) = kernel' := Except.ok.inj done
  rw [← planted]
  exact tables.plantRoot (xalloc_newTable returned) only

end Init

end B0s

import B0s.Proof.Mm.PageTable
import B0s.Construction.Mm.Vmm

/-
This file proves that mapped frames of the frame allocator stay held, unshared, and apart from
the page tables.
-/

namespace B0s
open TableForest

variable {σ : Type}

/-- The permission bits of an entry do not change its frame. -/
theorem pageAddr_or {frame bits : Nat} (aligned : frame % pageSizeInBytes = 0)
    (bounded : frame < 2 ^ 64) (small : bits < pageSizeInBytes) : pageAddr (frame ||| bits) = frame := by
  rw [WordBits.or_low_bits 12 aligned small]
  unfold pageSizeInBytes at *
  rw [pageAddr_eq (by omega)]
  unfold pageSizeInBytes
  omega

theorem or_mod_page {frame bits : Nat} (aligned : frame % pageSizeInBytes = 0)
    (small : bits < pageSizeInBytes) : (frame ||| bits) % pageSizeInBytes = bits := by
  rw [WordBits.or_low_bits 12 aligned small]
  unfold pageSizeInBytes at *
  omega

/-- The frame of a page is the address in its leaf entry. -/
def Kernel.frame (kernel : Kernel σ) (space va : Nat) : Nat := pageAddr (mmuLeaf space va kernel)

/-- The address is a table of some member space. -/
def Kernel.IsTable (kernel : Kernel σ) (member : Nat → Prop) (table : Nat) : Prop :=
  Reached (tableBelow kernel.word) member kernel.root 3 table

/-- Mapped frames of the allocator are held, are no tables, and back one page each. -/
structure Backing (frames : FrameAllocator σ) (member : Nat → Prop) (kernel : Kernel σ) : Prop where
  tables : PageTables frames member kernel
  owned : ∀ {space va}, member space → CanonicalPage va → mmuLeaf space va kernel ≠ 0 →
    frames.managed (kernel.frame space va) →
    frames.held kernel.env (kernel.frame space va) ∧
      ¬kernel.IsTable member (dmP2V (kernel.frame space va))
  unshared : ∀ {space va space' va'}, member space → member space' → CanonicalPage va →
    CanonicalPage va' → mmuLeaf space va kernel ≠ 0 → mmuLeaf space' va' kernel ≠ 0 →
    frames.managed (kernel.frame space va) → kernel.frame space va = kernel.frame space' va' →
    space = space' ∧ va = va'

/-- A frame is spare when the allocator does not manage it or nothing uses it yet. -/
def Spare (frames : FrameAllocator σ) (member : Nat → Prop) (kernel : Kernel σ) (pa : Nat) : Prop :=
  frames.managed pa → frames.held kernel.env pa ∧ ¬kernel.IsTable member (dmP2V pa) ∧
    ∀ {space va}, member space → CanonicalPage va → mmuLeaf space va kernel ≠ 0 →
      kernel.frame space va ≠ pa

theorem mmuLeaf_congr {kernel kernel' : Kernel σ} {space va : Nat}
    (word : kernel'.word = kernel.word) (root : kernel'.root space = kernel.root space) :
    mmuLeaf space va kernel' = mmuLeaf space va kernel := by
  simp only [mmuLeaf, word, root]

section
variable {frames : FrameAllocator σ} {member : Nat → Prop} {kernel kernel' : Kernel σ}

theorem held_backed {env : σ} {frame : Nat} (held : frames.held env frame)
    (aligned : frame % pageSizeInBytes = 0) (bounded : frame < 2 ^ 64) :
    Backed frames env (dmP2V frame) :=
  ⟨frame, held, aligned, bounded, rfl⟩

theorem Kernel.frame_backed {env : σ} {space va : Nat}
    (held : frames.held env (kernel.frame space va)) :
    Backed frames env (dmP2V (kernel.frame space va)) :=
  held_backed held (pageAddr_aligned _) (pageAddr_lt _)

/-- A frame allocation keeps the backing, and the new frame is spare. -/
theorem Backing.xalloc (backing : Backing frames member kernel) {pa : Nat} {env : σ}
    (returned : frames.pmmXalloc kernel.env = .ok (pa, env)) :
    Backing frames member { kernel with env := env } ∧
      Spare frames member { kernel with env := env } pa := by
  have grows : frames.Grows kernel.env env := (FrameAllocator.Grows.refl _).xalloc returned
  have new := xalloc_newTable returned
  refine ⟨⟨⟨backing.tables.forest, fun table reached => (backing.tables.backed table reached).grows grows⟩,
    ?_, backing.unshared⟩, ?_⟩
  · intro space va belongs page mapped managed
    have owned := backing.owned belongs page mapped managed
    exact ⟨grows.held owned.1, owned.2⟩
  · intro _
    refine ⟨(frames.xalloc_held _ _ _ returned pa).mpr (Or.inr rfl), ?_, ?_⟩
    · exact fun table => new.fresh (backing.tables.backed _ table)
    · intro space va belongs page mapped same
      have managed : frames.managed pa := frames.held_managed env pa
        ((frames.xalloc_held _ _ _ returned pa).mpr (Or.inr rfl))
      have held := (backing.owned belongs page mapped (same ▸ managed)).1
      exact frames.xalloc_fresh _ _ _ returned (same ▸ held)

/-- A new leaf entry keeps the backing when its frame is spare. -/
theorem Backing.set (backing : Backing frames member kernel) {space va value : Nat}
    (set : LeafSet frames member kernel kernel' space va value)
    (spare : value ≠ 0 → Spare frames member kernel (pageAddr value)) :
    Backing frames member kernel' := by
  have old : ∀ {space' va'}, member space' → CanonicalPage va' → ¬(space' = space ∧ va' = va) →
      mmuLeaf space' va' kernel' = mmuLeaf space' va' kernel ∧
        kernel'.frame space' va' = kernel.frame space' va' := by
    intro space' va' belongs page different
    have same := set.other belongs page different
    exact ⟨same, congrArg pageAddr same⟩
  have new : kernel'.frame space va = pageAddr value := congrArg pageAddr set.self
  have apart : ∀ {table}, Backed frames kernel.env table → ¬kernel.IsTable member table →
      ¬kernel'.IsTable member table := by
    intro table backed outside inside
    rcases set.fresh table inside with before | unbacked
    · exact outside before
    · exact unbacked backed
  refine ⟨set.tables, ?_, ?_⟩
  · intro space' va' belongs page mapped managed
    by_cases same : space' = space ∧ va' = va
    · obtain ⟨rfl, rfl⟩ := same
      rw [set.self] at mapped
      rw [new] at managed ⊢
      obtain ⟨held, outside, -⟩ := spare mapped managed
      exact ⟨set.env.held held,
        apart (held_backed held (pageAddr_aligned _) (pageAddr_lt _)) outside⟩
    · obtain ⟨leaf, frame⟩ := old belongs page same
      rw [leaf] at mapped
      rw [frame] at managed ⊢
      obtain ⟨held, outside⟩ := backing.owned belongs page mapped managed
      exact ⟨set.env.held held, apart (Kernel.frame_backed held) outside⟩
  · intro space₁ va₁ space₂ va₂ belongs₁ belongs₂ page₁ page₂ mapped₁ mapped₂ managed equal
    by_cases same₁ : space₁ = space ∧ va₁ = va
    · obtain ⟨rfl, rfl⟩ := same₁
      by_cases same₂ : space₂ = space₁ ∧ va₂ = va₁
      · exact ⟨same₂.1.symm, same₂.2.symm⟩
      · obtain ⟨leaf, frame⟩ := old belongs₂ page₂ same₂
        rw [set.self] at mapped₁
        rw [leaf] at mapped₂
        rw [new] at managed equal
        rw [frame] at equal
        exact absurd equal.symm ((spare mapped₁ managed).2.2 belongs₂ page₂ mapped₂)
    · obtain ⟨leaf, frame⟩ := old belongs₁ page₁ same₁
      rw [leaf] at mapped₁
      rw [frame] at managed equal
      by_cases same₂ : space₂ = space ∧ va₂ = va
      · obtain ⟨rfl, rfl⟩ := same₂
        rw [set.self] at mapped₂
        rw [new] at equal
        rw [equal] at managed
        exact absurd equal ((spare mapped₂ managed).2.2 belongs₁ page₁ mapped₁)
      · obtain ⟨leaf₂, frame₂⟩ := old belongs₂ page₂ same₂
        rw [leaf₂] at mapped₂
        rw [frame₂] at equal
        exact backing.unshared belongs₁ belongs₂ page₁ page₂ mapped₁ mapped₂ managed equal

/-- The tables depend only on the words, the roots, and the held frames. -/
theorem PageTables.transport (tables : PageTables frames member kernel) (word : kernel'.word = kernel.word)
    (root : kernel'.root = kernel.root)
    (held : ∀ frame, frames.held kernel'.env frame ↔ frames.held kernel.env frame) :
    PageTables frames member kernel' := by
  refine ⟨?_, ?_⟩
  · rw [word, root]
    exact tables.forest
  · rw [word, root]
    intro table reached
    obtain ⟨base, tableHeld, rest⟩ := tables.backed table reached
    exact ⟨base, (held base).mpr tableHeld, rest⟩

/-- The backing depends only on the words, the roots, and the held frames. -/
theorem Backing.transport (backing : Backing frames member kernel) (word : kernel'.word = kernel.word)
    (root : kernel'.root = kernel.root)
    (held : ∀ frame, frames.held kernel'.env frame ↔ frames.held kernel.env frame) :
    Backing frames member kernel' := by
  have leaf : ∀ space va, mmuLeaf space va kernel' = mmuLeaf space va kernel :=
    fun space va => mmuLeaf_congr word (congrFun root space)
  have frame : ∀ space va, kernel'.frame space va = kernel.frame space va :=
    fun space va => congrArg pageAddr (leaf space va)
  refine ⟨backing.tables.transport word root held, ?_, ?_⟩
  · intro space va belongs page
    rw [leaf, frame, held, Kernel.IsTable, word, root]
    exact backing.owned belongs page
  · intro space₁ va₁ space₂ va₂
    rw [leaf, leaf, frame, frame]
    exact backing.unshared

/-- A new empty page table keeps the backing. -/
theorem Backing.plant {member' : Nat → Prop} {space : Nat} (backing : Backing frames member kernel)
    (planted : RootSet frames member member' kernel kernel' space)
    (only : ∀ other, member' other → other ≠ space → member other) :
    Backing frames member' kernel' := by
  have old : ∀ {space' va}, member' space' → mmuLeaf space' va kernel' ≠ 0 →
      member space' ∧ mmuLeaf space' va kernel' = mmuLeaf space' va kernel ∧
        kernel'.frame space' va = kernel.frame space' va := by
    intro space' va belongs mapped
    have different : space' ≠ space := by
      rintro rfl
      exact mapped (planted.self va)
    have same := @planted.other space' va belongs different
    exact ⟨only space' belongs different, same, congrArg pageAddr same⟩
  refine ⟨planted.tables, ?_, ?_⟩
  · intro space' va belongs page mapped managed
    obtain ⟨belongs', leaf, frame⟩ := old belongs mapped
    rw [leaf] at mapped
    rw [frame] at managed ⊢
    obtain ⟨held, outside⟩ := backing.owned belongs' page mapped managed
    refine ⟨planted.env.held held, fun table => ?_⟩
    rcases planted.fresh _ table with before | unbacked
    · exact outside before
    · exact unbacked (Kernel.frame_backed held)
  · intro space₁ va₁ space₂ va₂ belongs₁ belongs₂ page₁ page₂ mapped₁ mapped₂ managed equal
    obtain ⟨belongs₁', leaf₁, frame₁⟩ := old belongs₁ mapped₁
    obtain ⟨belongs₂', leaf₂, frame₂⟩ := old belongs₂ mapped₂
    rw [leaf₁] at mapped₁
    rw [leaf₂] at mapped₂
    rw [frame₁] at managed equal
    rw [frame₂] at equal
    exact backing.unshared belongs₁' belongs₂' page₁ page₂ mapped₁ mapped₂ managed equal

/-- Unmapping a mapped page clears its leaf entry, releases its frame, and keeps the backing. -/
theorem mmuUnmapPage_spec (backing : Backing frames member kernel) {space va old : Nat}
    (belongs : member space) (page : CanonicalPage va)
    (unmapped : mmuUnmapPage frames space va kernel = .ok (old, kernel')) :
    old = mmuLeaf space va kernel ∧ ∃ middle env,
      LeafSet frames member kernel middle space va 0 ∧
      frames.pmmFree (kernel.frame space va) middle.env = .ok env ∧
      kernel' = { middle with env := env } ∧
      (old ≠ 0 → Backing frames member kernel') := by
  unfold mmuUnmapPage at unmapped
  obtain ⟨⟨pa, middle⟩, mapped, unmapped⟩ := Outcome.bind_eq_ok.mp unmapped
  obtain ⟨env, freed, unmapped⟩ := Outcome.bind_eq_ok.mp unmapped
  obtain ⟨rfl, rfl⟩ := Prod.mk.inj (Except.ok.inj unmapped)
  obtain ⟨rfl, set⟩ := mmuMapPage_leafSet backing.tables belongs page (by decide) mapped
  refine ⟨rfl, middle, env, set, freed, rfl, ?_⟩
  intro present
  have cleared := backing.set set fun nonzero => absurd rfl nonzero
  have held := frames.free_held _ _ _ freed
  refine ⟨⟨set.tables.forest, ?_⟩, ?_, ?_⟩
  · intro table reached
    obtain ⟨frame, tableHeld, aligned, bounded, same⟩ := set.tables.backed table reached
    refine ⟨frame, (held frame).mpr ⟨tableHeld, ?_⟩, aligned, bounded, same⟩
    intro equal
    have managed : frames.managed (kernel.frame space va) :=
      frames.held_managed _ _ (equal ▸ tableHeld)
    obtain ⟨frameHeld, outside⟩ := backing.owned belongs page present managed
    have tableSame : table = dmP2V (kernel.frame space va) := by
      rw [same, equal]
      rfl
    rcases set.fresh table reached with before | unbacked
    · exact outside (tableSame ▸ before)
    · exact unbacked (tableSame ▸ Kernel.frame_backed frameHeld)
  · intro space' va' belongs' page' mapped' managed
    obtain ⟨frameHeld, outside⟩ := cleared.owned belongs' page' mapped' managed
    refine ⟨(held _).mpr ⟨frameHeld, ?_⟩, outside⟩
    have different : ¬(space' = space ∧ va' = va) := by
      rintro ⟨rfl, rfl⟩
      exact mapped' set.self
    have same := set.other belongs' page' different
    have mappedBefore : mmuLeaf space' va' kernel ≠ 0 := same ▸ mapped'
    have frameSame : middle.frame space' va' = kernel.frame space' va' := congrArg pageAddr same
    intro equal
    have managedBefore : frames.managed (kernel.frame space' va') := frameSame ▸ managed
    exact different (backing.unshared belongs' belongs page' page mappedBefore present managedBefore
      (frameSame.symm.trans equal))
  · exact cleared.unshared

end

end B0s

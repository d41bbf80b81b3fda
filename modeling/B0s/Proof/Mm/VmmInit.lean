import B0s.Construction.Mm.VmmInit
import B0s.Proof.Mm.MmuTest
import B0s.Proof.Mm.PhysPages
import B0s.Proof.Mm.SpaceFill
import B0s.Proof.Mm.SpaceRun

/-
This file proves that `vmm_init` maps the kernel image and the direct mapping, and nothing else.
-/

namespace B0s
open DoublyLinked RangeMap TableForest

variable {σ : Type}

/-- These entries map a window to the frames from one address on. -/
def windowEntry (start stop pa flags : Nat) (entry : Nat → Nat) (va : Nat) : Nat :=
  if start ≤ va ∧ va < stop then pa + (va - start) ||| flags else entry va

/-- The first page of a window and the rest make up the window. -/
theorem windowEntry_next {start stop pa flags va : Nat} (entry : Nat → Nat) (inside : start < stop)
    (alignedStart : start % pageSizeInBytes = 0) (aligned : va % pageSizeInBytes = 0) :
    windowEntry (start + pageSizeInBytes) stop (pa + pageSizeInBytes) flags
        (Function.update entry start (pa ||| flags)) va = windowEntry start stop pa flags entry va := by
  unfold windowEntry
  by_cases first : va = start
  · subst first
    rw [if_neg (by unfold pageSizeInBytes; omega), if_pos ⟨le_rfl, inside⟩, Function.update_self, Nat.sub_self,
      Nat.add_zero]
  · rw [Function.update_of_ne first]
    by_cases later : start + pageSizeInBytes ≤ va ∧ va < stop
    · rw [if_pos later, if_pos ⟨by omega, later.2⟩, show pa + pageSizeInBytes + (va - (start + pageSizeInBytes)) =
        pa + (va - start) by omega]
    · rw [if_neg later, if_neg (by unfold pageSizeInBytes at *; omega)]

section
variable {alloc : KernelAllocator σ} {space : Nat} {all : Finset (List (Fin 512))} {entry : Nat → Nat}
  {kernel kernel' : Kernel σ}

/-- The loop over a contiguous region maps the rest of its window. -/
theorem vmmInitPhysContiguousFrom_fills {region start stop pa flags offset cursor frame steps : Nat}
    (filling : Filling alloc space all entry kernel) (record : (kernel.region region).range = ⟨start, stop, flags⟩)
    (here : cursor = start + offset) (target : frame = pa + offset) (span : PageSpan cursor stop) (room : cursor ≤ stop)
    (small : flags < pageSizeInBytes) (frames : pa + (stop - start) < 2 ^ 64)
    (needed : ∀ va, WindowPage cursor stop va → walkTables va ⊆ all)
    (empty : ∀ va, WindowPage cursor stop va → entry va = 0) (enough : stop - cursor < steps * pageSizeInBytes) :
    ∃ kernel', vmmInitPhysContiguousFrom alloc space region pa steps offset kernel = .ok kernel' ∧
      TablesOnly alloc kernel kernel' ∧
      Filling alloc space all (windowEntry cursor stop frame flags entry) kernel' := by
  induction steps generalizing offset cursor frame entry kernel with
  | zero => omega
  | succ steps ih =>
      obtain ⟨hStart, hStop, hFlags⟩ : (kernel.region region).vaStart = start ∧ (kernel.region region).vaStop = stop ∧
          (kernel.region region).flags = flags := Range.mk.inj record
      have addressable := span.addressable
      have va : u64 (start + offset) = cursor := here ▸ Nat.mod_eq_of_lt (by omega)
      rw [vmmInitPhysContiguousFrom, hStart, hStop, hFlags, va]
      by_cases inside : cursor < stop
      · have pa' : u64 (pa + offset) = frame := target ▸ Nat.mod_eq_of_lt (by omega)
        obtain ⟨-, next, rest⟩ := span.next inside
        have first := WindowPage.first span.alignedStart inside
        have offset' : u64 (offset + pageSizeInBytes) = offset + pageSizeInBytes := Nat.mod_eq_of_lt (by omega)
        have later : ∀ va, WindowPage (cursor + pageSizeInBytes) stop va →
            Function.update entry cursor (frame ||| flags) va = 0 := by
          intro va page
          have behind : va ≠ cursor :=
            Nat.ne_of_gt (Nat.lt_of_lt_of_le (Nat.lt_add_of_pos_right (by decide)) page.lower)
          rw [Function.update_of_ne behind]
          exact empty va page.later
        obtain ⟨middle, mapped, only, filled⟩ :=
          filling.map frame (span.page inside) (needed _ first) (empty _ first) small
        obtain ⟨kernel', looped, only', filled'⟩ := ih filled (by rw [only.regions]; exact record)
          (show cursor + pageSizeInBytes = start + (offset + pageSizeInBytes) by omega)
          (show frame + pageSizeInBytes = pa + (offset + pageSizeInBytes) by omega) rest next
          (fun va page => needed va page.later) later (by rw [Nat.succ_mul] at enough; omega)
        refine ⟨kernel', ?_, only.trans only', filled'.congr ?_⟩
        · rw [if_pos inside, pa', offset']
          exact Outcome.bind_eq_ok.mpr ⟨_, mapped, looped⟩
        · exact fun va page => windowEntry_next entry inside span.alignedStart page.aligned
      · refine ⟨kernel, if_neg inside, ⟨rfl, rfl, .refl _⟩, filling.congr ?_⟩
        intro va _
        exact (if_neg (by omega)).symm

/-- A created space is empty, and it lacks every table below its root. -/
theorem vmmCreateSpace_filling {vaStart vaStop : Nat} (lasts : alloc.Lasts (1 + all.card) kernel.env) :
    ∃ space kernel', vmmCreateSpace alloc vaStart vaStop kernel = .ok (space, kernel') ∧
      Filling alloc space all (fun _ => 0) kernel' ∧ SpaceList alloc.toObjectAllocator kernel' space [] := by
  rw [Nat.add_comm] at lasts
  obtain ⟨⟨frame, env⟩, returned, left⟩ := (lasts.records ((ObjectAllocator.Records.refl _).alloc .vmmSpace)).take
  rcases named : alloc.blockAlloc .vmmSpace kernel.env with ⟨space, env'⟩
  rw [named] at returned
  have none : PageTables alloc.toFrameAllocator (· ∈ []) kernel := (Coherent.none alloc (fun _ => []) kernel).backing.tables
  have none' := (Coherent.none alloc (fun _ => []) (({ kernel with env := env' } : Kernel σ).setHead space NULL)).backing.tables
  have done : vmmCreateSpace alloc vaStart vaStop kernel =
      .ok (space, (({ kernel with env := env' } : Kernel σ).setHead space NULL).plantRoot env space (dmP2V frame)) := by
    rw [vmmCreateSpace_calls, named]
    unfold mmuInit
    exact Outcome.bind_eq_ok.mpr ⟨_, Outcome.bind_eq_ok.mpr ⟨_, returned, rfl⟩, rfl⟩
  have made := vmmCreateSpace_created none (fun belongs => absurd belongs List.not_mem_nil) done
  have own : (fun other => other ∈ [] ∨ other = space) = (· = space) := by
    funext other
    simp
  have planting := @PageTables.planting _ _ _ (· = space) _ space _ _ none' (xalloc_newTable returned)
    fun other same different => absurd same different
  refine ⟨space, _, done, ⟨own ▸ made.tables, (made.live _ _).mpr (Or.inr ⟨rfl, rfl⟩),
    fun _ => made.leaf_self _, ∅, ?_, ?_⟩, made.listed_self⟩
  · intro path _ nonempty
    obtain ⟨index, rest, rfl⟩ := List.exists_cons_of_ne_nil nonempty
    exact iff_of_true (planting.descend_below index rest) (Finset.notMem_empty _)
  · rw [Finset.sdiff_empty]
    exact left

end

/-- The walk over the physical pages stops, or it goes on from the next page. -/
theorem pmmPhysPages_cases {pmap : List PmmRegion} {steps addr : Nat} {pages : List PmmPhysAddr}
    (returned : pmmPhysPages pmap steps addr = .ok pages) :
    (pmmNextPhysPage pmap addr).pa = 1 ∧ pages = [] ∨ (pmmNextPhysPage pmap addr).pa ≠ 1 ∧ ∃ steps' rest,
      steps = steps' + 1 ∧ pages = pmmNextPhysPage pmap addr :: rest ∧
        pmmPhysPages pmap steps' (pmmNextPhysPage pmap addr).pa = .ok rest := by
  cases steps with
  | zero => cases returned
  | succ steps =>
      rw [pmmPhysPages] at returned
      split_ifs at returned with last
      · exact Or.inl ⟨last, (Except.ok.inj returned).symm⟩
      · obtain ⟨rest, more, same⟩ := Outcome.bind_eq_ok.mp returned
        exact Or.inr ⟨last, steps, rest, rfl, (Except.ok.inj same).symm, more⟩

/-- The direct mapping ends below the kernel image. -/
def directLimit : Nat := 2 ^ 46

theorem dmP2V_direct {pa : Nat} (below : pa < directLimit) : dmP2V pa = pa + higherHalfStart := by
  unfold dmP2V u64 higherHalfStart directLimit at *
  omega

/-- These entries map each physical page in the direct mapping. -/
def directEntry : List PmmPhysAddr → (Nat → Nat) → Nat → Nat
  | [], entry => entry
  | page :: rest, entry => directEntry rest (Function.update entry (dmP2V page.pa) (page.pa ||| directFlags page.type))

/-- The entries of other pages are kept. -/
theorem directEntry_other {pages : List PmmPhysAddr} {entry : Nat → Nat} {va : Nat}
    (other : ∀ page ∈ pages, dmP2V page.pa ≠ va) : directEntry pages entry va = entry va := by
  induction pages generalizing entry with
  | nil => rfl
  | cons page rest ih =>
      rw [directEntry, ih fun later inside => other later (List.mem_cons_of_mem _ inside)]
      exact Function.update_of_ne (other page List.mem_cons_self).symm _ _

/-- The pages are aligned and ascending, and they fit below the kernel image. -/
structure DirectPages (pages : List PmmPhysAddr) : Prop where
  ascending : pages.Pairwise fun page other => page.pa < other.pa
  aligned : ∀ page ∈ pages, page.pa % pageSizeInBytes = 0
  below : ∀ page ∈ pages, page.pa < directLimit

theorem DirectPages.tail {page : PmmPhysAddr} {rest : List PmmPhysAddr} (pages : DirectPages (page :: rest)) :
    DirectPages rest where
  ascending := (List.pairwise_cons.mp pages.ascending).2
  aligned other inside := pages.aligned other (List.mem_cons_of_mem _ inside)
  below other inside := pages.below other (List.mem_cons_of_mem _ inside)

/-- A later page lies behind the whole page. -/
theorem DirectPages.behind {page other : PmmPhysAddr} {rest : List PmmPhysAddr} (pages : DirectPages (page :: rest))
    (inside : other ∈ rest) : dmP2V page.pa + pageSizeInBytes ≤ dmP2V other.pa := by
  have later := (List.pairwise_cons.mp pages.ascending).1 other inside
  have aligned := pages.aligned page List.mem_cons_self
  have aligned' := pages.tail.aligned other inside
  rw [dmP2V_direct (pages.below page List.mem_cons_self), dmP2V_direct (pages.tail.below other inside)]
  unfold pageSizeInBytes at *
  omega

theorem DirectPages.entry {pages : List PmmPhysAddr} (direct : DirectPages pages) {page : PmmPhysAddr}
    (inside : page ∈ pages) (entry : Nat → Nat) :
    directEntry pages entry (dmP2V page.pa) = page.pa ||| directFlags page.type := by
  induction pages generalizing entry with
  | nil => cases inside
  | cons first rest ih =>
      rw [directEntry]
      rcases List.mem_cons.mp inside with rfl | later
      · rw [directEntry_other, Function.update_self]
        intro other member
        have behind := direct.behind member
        unfold pageSizeInBytes at behind
        omega
      · exact ih direct.tail later _

/-- The window of a physical page in the direct mapping is a canonical page. -/
theorem directSpan {pa : Nat} (aligned : pa % pageSizeInBytes = 0) (below : pa < directLimit) :
    PageSpan (dmP2V pa) (dmP2V pa + pageSizeInBytes) := by
  rw [dmP2V_direct below]
  unfold higherHalfStart directLimit pageSizeInBytes at *
  refine ⟨by unfold pageSizeInBytes; omega, by unfold pageSizeInBytes; omega, by omega, ?_⟩
  intro va lower upper aligned'
  exact ⟨aligned', Or.inr (by omega), by omega⟩

theorem directFlags_valid (type : PmmRegionType) : PageFlags (directFlags type) := by
  cases type
  · exact ⟨by decide, by decide⟩
  · exact ⟨by decide, by decide⟩

/-- The direct mapping holds this address with these flags. -/
def DirectlyMapped (pages : List PmmPhysAddr) (va flags : Nat) : Prop :=
  ∃ page ∈ pages, dmP2V page.pa ≤ va ∧ va < dmP2V page.pa + pageSizeInBytes ∧ directFlags page.type = flags

section
variable {alloc : KernelAllocator σ} {space : Nat} {all : Finset (List (Fin 512))} {entry : Nat → Nat}
  {kernel kernel' : Kernel σ} {denotes : Nat → Nat → Prop}

/-- One round of the direct mapping lists and maps its page. -/
theorem vmmInitDirectMappingFrom_step {pmap : List PmmRegion} (steps : Nat) {page : PmmPhysAddr}
    (filling : Filling alloc space all entry kernel) (listing : Listing alloc space denotes kernel)
    (aligned : page.pa % pageSizeInBytes = 0) (below : page.pa < directLimit)
    (needed : walkTables (dmP2V page.pa) ⊆ all) (empty : entry (dmP2V page.pa) = 0)
    (vacant : ∀ va flags, denotes va flags → ¬(dmP2V page.pa ≤ va ∧ va < dmP2V page.pa + pageSizeInBytes)) :
    ∃ middle, vmmInitDirectMappingFrom alloc pmap space (steps + 1) page kernel =
        (if (pmmNextPhysPage pmap page.pa).pa ≠ 1 then
          vmmInitDirectMappingFrom alloc pmap space steps (pmmNextPhysPage pmap page.pa) middle
        else .ok middle) ∧
      Filling alloc space all (Function.update entry (dmP2V page.pa) (page.pa ||| directFlags page.type)) middle ∧
      Listing alloc space (fun va flags => dmP2V page.pa ≤ va ∧ va < dmP2V page.pa + pageSizeInBytes ∧
        directFlags page.type = flags ∨ denotes va flags) middle := by
  have span := directSpan aligned below
  have nonempty : dmP2V page.pa < dmP2V page.pa + pageSizeInBytes := Nat.lt_add_of_pos_right (by decide)
  have stop : u64 (dmP2V page.pa + pageSizeInBytes) = dmP2V page.pa + pageSizeInBytes :=
    Nat.mod_eq_of_lt span.addressable
  obtain ⟨region, listed, added, nonnull, filled, listing'⟩ :=
    listing.add filling span nonempty (directFlags page.type) vacant
  obtain ⟨middle, mapped, only, filled'⟩ :=
    filled.map page.pa (span.page nonempty) needed empty (directFlags_valid page.type).small
  refine ⟨middle, ?_, filled', listing'.mapped only⟩
  rw [vmmInitDirectMappingFrom, stop, added]
  refine (if_neg nonnull).trans ?_
  rw [mapped]
  rfl

/-- The loop of the direct mapping lists and maps each page that the walk over the physical pages reaches. -/
theorem vmmInitDirectMappingFrom_fills {pmap : List PmmRegion} {steps : Nat} {page : PmmPhysAddr}
    {rest : List PmmPhysAddr} (follows : pmmPhysPages pmap steps page.pa = .ok rest)
    (filling : Filling alloc space all entry kernel) (listing : Listing alloc space denotes kernel)
    (direct : DirectPages (page :: rest)) (needed : ∀ other ∈ page :: rest, walkTables (dmP2V other.pa) ⊆ all)
    (empty : ∀ other ∈ page :: rest, entry (dmP2V other.pa) = 0)
    (vacant : ∀ va flags flags', denotes va flags → ¬DirectlyMapped (page :: rest) va flags') :
    ∃ kernel', vmmInitDirectMappingFrom alloc pmap space (steps + 1) page kernel = .ok kernel' ∧
      Filling alloc space all (directEntry (page :: rest) entry) kernel' ∧
      Listing alloc space (fun va flags => DirectlyMapped (page :: rest) va flags ∨ denotes va flags) kernel' := by
  induction rest generalizing steps page entry denotes kernel with
  | nil =>
      obtain ⟨middle, round, filled, listed⟩ := vmmInitDirectMappingFrom_step steps filling listing
        (direct.aligned page List.mem_cons_self) (direct.below page List.mem_cons_self)
        (needed page List.mem_cons_self) (empty page List.mem_cons_self)
        fun va flags denoted inside => vacant va flags _ denoted ⟨page, List.mem_cons_self, inside.1, inside.2, rfl⟩
      rcases pmmPhysPages_cases follows with ⟨last, -⟩ | ⟨-, _, _, -, shape, -⟩
      · refine ⟨middle, round.trans (if_neg (not_not.mpr last)), filled, ?_⟩
        simpa only [DirectlyMapped, List.mem_singleton, exists_eq_left] using listed
      · cases shape
  | cons next rest ih =>
      obtain ⟨middle, round, filled, listed⟩ := vmmInitDirectMappingFrom_step steps filling listing
        (direct.aligned page List.mem_cons_self) (direct.below page List.mem_cons_self)
        (needed page List.mem_cons_self) (empty page List.mem_cons_self)
        fun va flags denoted inside => vacant va flags _ denoted ⟨page, List.mem_cons_self, inside.1, inside.2, rfl⟩
      rcases pmmPhysPages_cases follows with ⟨-, shape⟩ | ⟨more, steps', later, rfl, shape, follows'⟩
      · cases shape
      · obtain ⟨rfl, rfl⟩ := List.cons.inj shape
        have clear : ∀ other ∈ pmmNextPhysPage pmap page.pa :: rest, Function.update entry (dmP2V page.pa)
            (page.pa ||| directFlags page.type) (dmP2V other.pa) = 0 := by
          intro other inside
          have behind := direct.behind inside
          rw [Function.update_of_ne (Nat.ne_of_gt (Nat.lt_of_lt_of_le (Nat.lt_add_of_pos_right (by decide)) behind))]
          exact empty other (List.mem_cons_of_mem _ inside)
        have apart : ∀ va flags flags', (dmP2V page.pa ≤ va ∧ va < dmP2V page.pa + pageSizeInBytes ∧
            directFlags page.type = flags ∨ denotes va flags) →
              ¬DirectlyMapped (pmmNextPhysPage pmap page.pa :: rest) va flags' := by
          rintro va flags flags' (⟨-, upper, -⟩ | old) ⟨other, inside, lower, above⟩
          · have behind := direct.behind inside
            omega
          · exact vacant va flags flags' old ⟨other, List.mem_cons_of_mem _ inside, lower, above⟩
        obtain ⟨kernel', looped, filled', listed'⟩ := ih follows' filled listed direct.tail
          (fun other inside => needed other (List.mem_cons_of_mem _ inside)) clear apart
        refine ⟨kernel', (round.trans (if_pos more)).trans looped, filled', ?_⟩
        obtain ⟨ptrs, ranges, windows, same⟩ := listed'
        refine ⟨ptrs, ranges, windows, fun va flags => (same va flags).trans ?_⟩
        constructor
        · rintro (⟨other, inside, window⟩ | window | old)
          · exact Or.inl ⟨other, List.mem_cons_of_mem _ inside, window⟩
          · exact Or.inl ⟨page, List.mem_cons_self, window⟩
          · exact Or.inr old
        · rintro (⟨other, inside, window⟩ | old)
          · rcases List.mem_cons.mp inside with rfl | behind
            · exact Or.inr (Or.inl window)
            · exact Or.inl ⟨other, behind, window⟩
          · exact Or.inr (Or.inr old)

end

namespace KernelLayout

variable (layout : KernelLayout)

/-- These are the pages of the kernel image. -/
def pages : List Nat := windowPages layout.vmaStart ((layout.pmmVmaStop - layout.vmaStart) / pageSizeInBytes)

/-- The kernel image has three windows. -/
def windows : List (Range Nat Nat) :=
  [⟨layout.rwStart, layout.rwStop, pageKernelRw⟩, ⟨layout.roStart, layout.roStop, pageKernelRo⟩,
    ⟨layout.roStop, layout.pmmVmaStop, pageKernelRw⟩]

/-- Only the middle window is read-only. -/
def flags (va : Nat) : Nat := if layout.roStart ≤ va ∧ va < layout.roStop then pageKernelRo else pageKernelRw

/-- These entries map the kernel image to the start of memory. -/
def entry (va : Nat) : Nat :=
  if layout.vmaStart ≤ va ∧ va < layout.pmmVmaStop then va - kernelVma ||| layout.flags va else 0

theorem mem_pages {va : Nat} (page : WindowPage layout.vmaStart layout.pmmVmaStop va) : va ∈ layout.pages := by
  have aligned := layout.rwAligned
  have alignedStop := layout.stopAligned
  have starts := layout.starts
  obtain ⟨lower, upper, aligned'⟩ := page
  refine mem_windowPages.mpr ⟨(va - layout.vmaStart) / pageSizeInBytes, ?_, ?_⟩
  · unfold pageSizeInBytes at *
    omega
  · unfold pageSizeInBytes at *
    omega

theorem span {start stop : Nat} (lower : layout.vmaStart ≤ start) (upper : stop ≤ layout.pmmVmaStop)
    (alignedStart : start % pageSizeInBytes = 0) (alignedStop : stop % pageSizeInBytes = 0) : PageSpan start stop := by
  have below := layout.lower
  have above := layout.upper
  have starts := layout.starts
  unfold kernelVma at *
  refine ⟨alignedStart, alignedStop, by omega, ?_⟩
  intro va first last aligned
  exact ⟨aligned, Or.inr (by omega), by omega⟩

theorem canonical : Canonical layout.windows := by
  have first := layout.rwNonempty
  have second := layout.roNonempty
  have third := layout.dataNonempty
  have joins := layout.joins
  refine ⟨?_, ?_, ?_⟩
  · simp only [windows, List.mem_cons, List.not_mem_nil, or_false]
    rintro range (rfl | rfl | rfl) <;> assumption
  · simp only [windows, List.pairwise_cons, List.mem_cons, List.not_mem_nil, or_false, forall_eq_or_imp, forall_eq]
    refine ⟨⟨joins.le, by omega⟩, le_rfl, ?_⟩
    simp
  · simp [windows, Range.Joins, pageKernelRw, pageKernelRo, pagePresent, pageRw, pageRo, pageKernelRing, pageGlobal]

theorem windows_denotes (va flags : Nat) : Denotes layout.windows va flags ↔
    layout.vmaStart ≤ va ∧ va < layout.pmmVmaStop ∧ layout.flags va = flags := by
  have first := layout.rwNonempty
  have second := layout.roNonempty
  have third := layout.dataNonempty
  have joins := layout.joins
  have starts := layout.starts
  unfold KernelLayout.flags
  simp only [Denotes, windows, List.exists_mem_cons_iff, Range.Contains, List.not_mem_nil, false_and, exists_false,
    or_false]
  split_ifs with inside
  · constructor
    · rintro (⟨window, -⟩ | ⟨window, same⟩ | ⟨window, -⟩)
      · omega
      · exact ⟨by omega, by omega, same⟩
      · omega
    · rintro ⟨-, -, same⟩
      exact Or.inr (Or.inl ⟨inside, same⟩)
  · constructor
    · rintro (⟨window, same⟩ | ⟨window, -⟩ | ⟨window, same⟩)
      · exact ⟨by omega, by omega, same⟩
      · omega
      · exact ⟨by omega, by omega, same⟩
    · rintro ⟨lower, upper, same⟩
      by_cases before : va < layout.rwStop
      · exact Or.inl ⟨⟨by omega, before⟩, same⟩
      · exact Or.inr (Or.inr ⟨⟨by omega, upper⟩, same⟩)

/-- The three windows make up the image. -/
theorem entry_eq (va : Nat) : windowEntry layout.roStop layout.pmmVmaStop (layout.roStop - kernelVma) pageKernelRw
    (windowEntry layout.roStart layout.roStop (layout.roStart - kernelVma) pageKernelRo
      (windowEntry layout.rwStart layout.rwStop (layout.rwStart - kernelVma) pageKernelRw fun _ => 0)) va =
    layout.entry va := by
  have first := layout.rwNonempty
  have second := layout.roNonempty
  have third := layout.dataNonempty
  have joins := layout.joins
  have starts := layout.starts
  have lower := layout.lower
  have place : ∀ {start : Nat}, layout.rwStart ≤ start → start ≤ va → start - kernelVma + (va - start) = va - kernelVma := by
    intro start behind inside
    omega
  unfold windowEntry entry KernelLayout.flags
  by_cases data : layout.roStop ≤ va ∧ va < layout.pmmVmaStop
  · rw [if_pos data, place (by omega) data.1, if_pos ⟨by omega, data.2⟩, if_neg (by omega)]
  · rw [if_neg data]
    by_cases code : layout.roStart ≤ va ∧ va < layout.roStop
    · rw [if_pos code, place (by omega) code.1, if_pos (by omega), if_pos code]
    · rw [if_neg code]
      by_cases uefi : layout.rwStart ≤ va ∧ va < layout.rwStop
      · rw [if_pos uefi, place le_rfl uefi.1, if_pos (by omega), if_neg code]
      · rw [if_neg uefi, if_neg (by omega)]

end KernelLayout

/-- These are the addresses of the physical pages in the direct mapping. -/
def directPages (pmap : List PmmRegion) : List Nat :=
  pmap.flatMap fun region =>
    ((windowPages region.addr region.sizeInPages).filter (pageSizeInBytes ≤ ·)).map dmP2V

theorem mem_directPages {pmap : List PmmRegion} {region : PmmRegion} {pa : Nat} (member : region ∈ pmap)
    (aligned : region.addr % pageSizeInBytes = 0) (holds : region.Holds pa) (behind : pageSizeInBytes ≤ pa) :
    dmP2V pa ∈ directPages pmap := by
  obtain ⟨aligned', lower, upper⟩ := holds
  refine List.mem_flatMap.mpr ⟨region, member, List.mem_map.mpr ⟨pa, List.mem_filter.mpr ⟨?_, decide_eq_true behind⟩, rfl⟩⟩
  refine mem_windowPages.mpr ⟨(pa - region.addr) / pageSizeInBytes, ?_, ?_⟩
  · unfold pageSizeInBytes at *
    omega
  · unfold pageSizeInBytes at *
    omega

/-- These tables carry the kernel image and the direct mapping. -/
def kernelTables (layout : KernelLayout) (pmap : List PmmRegion) : Finset (List (Fin 512)) :=
  walkTablesOf (layout.pages ++ directPages pmap)

/-- A space maps the kernel image and the physical pages from the second one on, and nothing else. -/
structure KernelMapped (alloc : KernelAllocator σ) (layout : KernelLayout) (pmap : List PmmRegion) (space : Nat)
    (kernel : Kernel σ) : Prop where
  tables : PageTables alloc.toFrameAllocator (· = space) kernel
  created : alloc.live kernel.env .vmmSpace space
  image : ∀ va, WindowPage layout.vmaStart layout.pmmVmaStop va →
    mmuLeaf space va kernel = va - kernelVma ||| layout.flags va
  direct : ∀ region ∈ pmap, ∀ pa, pageSizeInBytes ≤ pa → region.Holds pa →
    mmuLeaf space (dmP2V pa) kernel = pa ||| directFlags region.type
  only : ∀ va, CanonicalPage va → mmuLeaf space va kernel ≠ 0 → WindowPage layout.vmaStart layout.pmmVmaStop va ∨
    ∃ region ∈ pmap, ∃ pa, pageSizeInBytes ≤ pa ∧ region.Holds pa ∧ va = dmP2V pa
  listing : Listing alloc space (fun va flags =>
    (∃ region ∈ pmap, ∃ pa, pageSizeInBytes ≤ pa ∧ region.Holds pa ∧ dmP2V pa ≤ va ∧ va < dmP2V pa + pageSizeInBytes ∧
      directFlags region.type = flags) ∨
    layout.vmaStart ≤ va ∧ va < layout.pmmVmaStop ∧ layout.flags va = flags) kernel

section
variable {alloc : KernelAllocator σ} {space : Nat} {all : Finset (List (Fin 512))} {entry : Nat → Nat}
  {kernel : Kernel σ}

theorem v2p_eq {va : Nat} (lower : kernelVma ≤ va) (upper : va < 2 ^ 64) : v2p va = va - kernelVma := by
  unfold v2p subU64
  unfold kernelVma at *
  omega

/-- A contiguous region is mapped to the frames that `V2P` gives. -/
theorem vmmInitPhysContiguousRegion_fills {region start stop flags : Nat}
    (filling : Filling alloc space all entry kernel) (record : (kernel.region region).range = ⟨start, stop, flags⟩)
    (span : PageSpan start stop) (lower : kernelVma ≤ start) (room : start ≤ stop) (small : flags < pageSizeInBytes)
    (needed : ∀ va, WindowPage start stop va → walkTables va ⊆ all)
    (empty : ∀ va, WindowPage start stop va → entry va = 0) :
    ∃ kernel', vmmInitPhysContiguousRegion alloc space region (v2p (kernel.region region).vaStart) kernel = .ok kernel' ∧
      TablesOnly alloc kernel kernel' ∧
      Filling alloc space all (windowEntry start stop (start - kernelVma) flags entry) kernel' := by
  have addressable := span.addressable
  have frame : v2p (kernel.region region).vaStart = start - kernelVma := by
    rw [show (kernel.region region).vaStart = start from congrArg Range.start record]
    exact v2p_eq lower (by omega)
  have frames : start - kernelVma + (stop - start) < 2 ^ 64 := by omega
  have enough : stop - start < walkLimit * pageSizeInBytes := by
    unfold walkLimit pageSizeInBytes
    omega
  rw [frame, vmmInitPhysContiguousRegion]
  exact vmmInitPhysContiguousFrom_fills filling record (Nat.add_zero start).symm (Nat.add_zero _).symm span room small
    frames needed empty enough

/-- The three windows of the image get a record each. -/
theorem KernelLayout.records (layout : KernelLayout) (filling : Filling alloc space all entry kernel)
    (listed : SpaceList alloc.toObjectAllocator kernel space []) :
    ∃ kuefi kcode kdata kernel₁ kernel₂ kernel₃,
      vmmAddRange alloc.toObjectAllocator space layout.rwStart layout.rwStop pageKernelRw kernel = .ok (kuefi, kernel₁) ∧
      vmmAddRange alloc.toObjectAllocator space layout.roStart layout.roStop pageKernelRo kernel₁ = .ok (kcode, kernel₂) ∧
      vmmAddRange alloc.toObjectAllocator space layout.roStop layout.pmmVmaStop pageKernelRw kernel₂ =
        .ok (kdata, kernel₃) ∧
      Windows alloc space [kuefi, kcode, kdata] layout.windows kernel₃ ∧ Filling alloc space all entry kernel₃ := by
  have starts := layout.starts
  have joins := layout.joins
  have first := layout.rwNonempty
  have second := layout.roNonempty
  have third := layout.dataNonempty
  have whole : Canonical (([] ++ [_]) ++ [_] ++ [_]) := layout.canonical
  have front := ((canonical_append _ _).mp whole).1
  have front' := ((canonical_append _ _).mp front).1
  have empty : Windows alloc space [] [] kernel := ⟨listed, rfl, wholePages_nil⟩
  obtain ⟨kuefi, kernel₁, added₁, windows₁, filled₁⟩ := empty.append filling
    (layout.span starts.le (by omega) layout.rwAligned (joins ▸ layout.roAligned)) front'
  obtain ⟨kcode, kernel₂, added₂, windows₂, filled₂⟩ := windows₁.append filled₁
    (layout.span (by omega) (by omega) layout.roAligned layout.roStopAligned) front
  obtain ⟨kdata, kernel₃, added₃, windows₃, filled₃⟩ := windows₂.append filled₂
    (layout.span (by omega) le_rfl layout.roStopAligned layout.stopAligned) whole
  exact ⟨kuefi, kcode, kdata, kernel₁, kernel₂, kernel₃, added₁, added₂, added₃, windows₃, filled₃⟩

/-- The pages of the three windows are mapped. -/
theorem KernelLayout.mapped (layout : KernelLayout) {kuefi kcode kdata : Nat}
    (filling : Filling alloc space all (fun _ => 0) kernel)
    (windows : Windows alloc space [kuefi, kcode, kdata] layout.windows kernel)
    (needed : ∀ va ∈ layout.pages, walkTables va ⊆ all) :
    ∃ kernel₁ kernel₂ kernel₃,
      vmmInitPhysContiguousRegion alloc space kuefi (v2p (kernel.region kuefi).vaStart) kernel = .ok kernel₁ ∧
      vmmInitPhysContiguousRegion alloc space kcode (v2p (kernel₁.region kcode).vaStart) kernel₁ = .ok kernel₂ ∧
      vmmInitPhysContiguousRegion alloc space kdata (v2p (kernel₂.region kdata).vaStart) kernel₂ = .ok kernel₃ ∧
      TablesOnly alloc kernel kernel₃ ∧ Filling alloc space all layout.entry kernel₃ := by
  have starts := layout.starts
  have joins := layout.joins
  have lower := layout.lower
  have first := layout.rwNonempty
  have second := layout.roNonempty
  have third := layout.dataNonempty
  obtain ⟨uefi, code, data⟩ : (kernel.region kuefi).range = ⟨layout.rwStart, layout.rwStop, pageKernelRw⟩ ∧
      (kernel.region kcode).range = ⟨layout.roStart, layout.roStop, pageKernelRo⟩ ∧
      (kernel.region kdata).range = ⟨layout.roStop, layout.pmmVmaStop, pageKernelRw⟩ := by
    have same := windows.ranges_eq
    simpa only [Kernel.ranges, List.map_cons, List.map_nil, KernelLayout.windows, List.cons.injEq, and_true] using same
  have inside : ∀ {start stop va : Nat}, layout.vmaStart ≤ start → stop ≤ layout.pmmVmaStop → WindowPage start stop va →
      walkTables va ⊆ all := fun behind before page =>
    needed _ (layout.mem_pages ⟨behind.trans page.lower, page.upper.trans_le before, page.aligned⟩)
  obtain ⟨kernel₁, done₁, only₁, filled₁⟩ := vmmInitPhysContiguousRegion_fills filling uefi
    (layout.span starts.le (by omega) layout.rwAligned (joins ▸ layout.roAligned)) lower first.le (by decide)
    (fun va page => inside starts.le (by omega) page) fun _ _ => rfl
  obtain ⟨kernel₂, done₂, only₂, filled₂⟩ := vmmInitPhysContiguousRegion_fills filled₁
    (by rw [only₁.regions]; exact code) (layout.span (by omega) (by omega) layout.roAligned layout.roStopAligned)
    (by omega) second.le (by decide) (fun va page => inside (by omega) (by omega) page)
    fun va page => if_neg (by have behind := page.lower; omega)
  obtain ⟨kernel₃, done₃, only₃, filled₃⟩ := vmmInitPhysContiguousRegion_fills filled₂
    (by rw [only₂.regions, only₁.regions]; exact data) (layout.span (by omega) le_rfl layout.roStopAligned layout.stopAligned)
    (by omega) third.le (by decide) (fun va page => inside (by omega) le_rfl page)
    fun va page => (if_neg (by have behind := page.lower; omega)).trans (if_neg (by have behind := page.lower; omega))
  exact ⟨kernel₁, kernel₂, kernel₃, done₁, done₂, done₃, (only₁.trans only₂).trans only₃,
    filled₃.congr fun va _ => layout.entry_eq va⟩

/-- The direct mapping is listed and mapped beside the image. -/
theorem vmmInitDirectMapping_maps {layout : KernelLayout} {pmap : List PmmRegion}
    (filling : Filling alloc space all layout.entry kernel)
    (listing : Listing alloc space (fun va flags =>
      layout.vmaStart ≤ va ∧ va < layout.pmmVmaStop ∧ layout.flags va = flags) kernel)
    (regions : PageRegions pmap)
    (below : ∀ region ∈ pmap, region.addr + region.sizeInPages * pageSizeInBytes < directLimit)
    (some : ∃ region ∈ pmap, ∃ pa, pageSizeInBytes ≤ pa ∧ region.Holds pa)
    (needed : ∀ va ∈ directPages pmap, walkTables va ⊆ all) :
    ∃ kernel', vmmInitDirectMapping alloc pmap space kernel = .ok kernel' ∧
      KernelMapped alloc layout pmap space kernel' := by
  obtain ⟨pages, returned, behind⟩ := pmmPhysPages_behind regions (Nat.zero_mod _) (by decide)
    (show 2 ^ 64 - 0 ≤ walkLimit * pageSizeInBytes by decide)
  have exactly : ∀ page : PmmPhysAddr, page ∈ pages ↔
      pageSizeInBytes ≤ page.pa ∧ ∃ region ∈ pmap, region.type = page.type ∧ region.Holds page.pa := by
    intro page
    rw [behind.exactly page, Nat.zero_add]
  have direct : DirectPages pages := by
    refine ⟨behind.ascending, ?_, ?_⟩
    · intro page inside
      obtain ⟨-, region, -, -, holds⟩ := (exactly page).mp inside
      exact holds.aligned
    · intro page inside
      obtain ⟨-, region, member, -, holds⟩ := (exactly page).mp inside
      exact holds.upper.trans (below region member)
  have starts := layout.starts
  have image := layout.lower
  have above : ∀ page ∈ pages, dmP2V page.pa + pageSizeInBytes ≤ layout.vmaStart := by
    intro page inside
    have limit := direct.below page inside
    rw [dmP2V_direct limit]
    unfold kernelVma higherHalfStart directLimit pageSizeInBytes at *
    omega
  have outside : ∀ page ∈ pages, layout.entry (dmP2V page.pa) = 0 := by
    intro page inside
    have before := above page inside
    exact if_neg (by unfold pageSizeInBytes at before; omega)
  obtain ⟨first, rest, rfl⟩ : ∃ first rest, pages = first :: rest := by
    obtain ⟨region, member, pa, real, holds⟩ := some
    exact List.exists_cons_of_ne_nil (List.ne_nil_of_mem ((exactly ⟨region.type, pa⟩).mpr
      ⟨real, region, member, rfl, holds⟩))
  rcases pmmPhysPages_cases returned with ⟨-, none⟩ | ⟨-, steps, later, limit, shape, follows⟩
  · cases none
  obtain ⟨rfl, rfl⟩ := List.cons.inj shape
  obtain ⟨kernel', looped, filled, listed⟩ := vmmInitDirectMappingFrom_fills follows filling listing direct
    (fun page inside => by
      obtain ⟨real, region, member, -, holds⟩ := (exactly page).mp inside
      exact needed _ (mem_directPages member (regions.aligned region member) holds real)) outside
    (fun va flags flags' denoted mapped => by
      obtain ⟨page, inside, -, upper, -⟩ := mapped
      have before := above page inside
      omega)
  refine ⟨kernel', ?_, filled.tables, filled.created, ?_, ?_, ?_, ?_⟩
  · rw [vmmInitDirectMapping, limit]
    exact looped
  · intro va page
    have canonical : CanonicalPage va :=
      (layout.span le_rfl le_rfl (starts ▸ layout.rwAligned) layout.stopAligned).pages va page.lower page.upper page.aligned
    rw [filled.leaf canonical, directEntry_other fun other inside => ?_]
    · exact if_pos ⟨page.lower, page.upper⟩
    · have before := above other inside
      have behind := page.lower
      unfold pageSizeInBytes at before
      omega
  · intro region member pa real holds
    have inside := (exactly ⟨region.type, pa⟩).mpr ⟨real, region, member, rfl, holds⟩
    have room : dmP2V pa < dmP2V pa + pageSizeInBytes := Nat.lt_add_of_pos_right (by decide)
    rw [filled.leaf ((directSpan holds.aligned (direct.below _ inside)).page room)]
    exact direct.entry inside layout.entry
  · intro va page mapped
    rw [filled.leaf page] at mapped
    by_cases found : ∃ other ∈ pmmNextPhysPage pmap 0 :: rest, dmP2V other.pa = va
    · obtain ⟨other, inside, rfl⟩ := found
      obtain ⟨real, region, member, -, holds⟩ := (exactly other).mp inside
      exact Or.inr ⟨region, member, other.pa, real, holds, rfl⟩
    · rw [directEntry_other fun other inside same => found ⟨other, inside, same⟩] at mapped
      have window := (ite_ne_right_iff.mp mapped).1
      exact Or.inl ⟨window.1, window.2, page.aligned⟩
  · obtain ⟨ptrs, ranges, windows, same⟩ := listed
    refine ⟨ptrs, ranges, windows, fun va flags => (same va flags).trans (or_congr_left ?_)⟩
    constructor
    · rintro ⟨page, inside, lower, upper, flagged⟩
      obtain ⟨real, region, member, type, holds⟩ := (exactly page).mp inside
      exact ⟨region, member, page.pa, real, holds, lower, upper, type ▸ flagged⟩
    · rintro ⟨region, member, pa, real, holds, lower, upper, flagged⟩
      exact ⟨⟨region.type, pa⟩, (exactly _).mpr ⟨real, region, member, rfl, holds⟩, lower, upper, flagged⟩

theorem KernelLayout.flags_valid (layout : KernelLayout) (va : Nat) : PageFlags (layout.flags va) := by
  unfold KernelLayout.flags
  split_ifs
  · exact ⟨by decide, by decide⟩
  · exact ⟨by decide, by decide⟩

/-- A page of the image translates as in the boot tables. -/
theorem KernelMapped.translates {layout : KernelLayout} {pmap : List PmmRegion}
    (mapped : KernelMapped alloc layout pmap space kernel) {va : Nat}
    (page : WindowPage layout.vmaStart layout.pmmVmaStop va) :
    mmuTranslate4k (kernel.root space) va kernel = va - kernelVma := by
  have leaf := mapped.image va page
  have valid := layout.flags_valid va
  have aligned := page.aligned
  have upper := page.upper.trans layout.upper
  rw [mmuTranslate4k_eq aligned (leaf ▸ valid.or_ne_zero _), leaf]
  apply pageAddr_or _ _ valid.small
  · unfold kernelVma pageSizeInBytes at *
    omega
  · unfold kernelVma at *
    omega

/-- A physical page translates to itself in the direct mapping. -/
theorem KernelMapped.translates_direct {layout : KernelLayout} {pmap : List PmmRegion}
    (mapped : KernelMapped alloc layout pmap space kernel) {region : PmmRegion} {pa : Nat} (member : region ∈ pmap)
    (real : pageSizeInBytes ≤ pa) (holds : region.Holds pa) (below : pa < directLimit) :
    mmuTranslate4k (kernel.root space) (dmP2V pa) kernel = pa := by
  have leaf := mapped.direct region member pa real holds
  have valid := directFlags_valid region.type
  rw [mmuTranslate4k_eq (directSpan holds.aligned below).alignedStart (leaf ▸ valid.or_ne_zero _), leaf]
  exact pageAddr_or holds.aligned (below.trans (by decide)) valid.small

end

section
variable {alloc : KernelAllocator σ} {layout : KernelLayout} {pmap : List PmmRegion} {kernel : Kernel σ} {space : Nat}

/-- An aligned address with valid flags has the present bit. -/
theorem PageFlags.or_present {flags pa : Nat} (valid : PageFlags flags) (aligned : pa % pageSizeInBytes = 0) :
    (pa ||| flags) &&& pagePresent ≠ 0 := by
  have odd := valid.present
  rw [WordBits.or_low_bits 12 aligned valid.small, pagePresent, Nat.and_one_is_mod]
  unfold pageSizeInBytes at aligned
  omega

/-- The probe reads every page of the kernel space. -/
theorem KernelMapped.probes (mapped : KernelMapped alloc layout pmap space kernel)
    (below : ∀ region ∈ pmap, region.addr + region.sizeInPages * pageSizeInBytes < directLimit) :
    vmmProbeSpace space kernel = .ok () := by
  obtain ⟨ptrs, _, ⟨listed, rfl, pages⟩, same⟩ := mapped.listing
  refine (vmmProbeSpace_decides listed pages).ok_iff.mpr ?_
  intro range inside _ va page
  have point : Denotes (kernel.ranges ptrs) va range.flags := ⟨range, inside, ⟨page.lower, page.upper⟩, rfl⟩
  rcases (same va range.flags).mp point with ⟨region, member, pa, real, holds, lower, upper, -⟩ | ⟨lower, upper, -⟩
  · have aligned := (directSpan holds.aligned (holds.upper.trans (below region member))).alignedStart
    have aligned' := page.aligned
    have start : va = dmP2V pa := by
      unfold pageSizeInBytes at *
      omega
    rw [start, mapped.direct region member pa real holds]
    exact (directFlags_valid _).or_present holds.aligned
  · have aligned := page.aligned
    have image := layout.lower
    have starts := layout.starts
    rw [mapped.image va ⟨lower, upper, aligned⟩]
    refine (layout.flags_valid va).or_present ?_
    unfold kernelVma pageSizeInBytes at *
    omega

/-- The boot tables map the image to the start of memory. -/
theorem KernelLayout.boot_translates (layout : KernelLayout) (boot : BootTables) {va : Nat}
    (page : WindowPage layout.vmaStart layout.pmmVmaStop va) :
    mmuTranslate1gb boot.word (p2v boot.pml4) va = va - kernelVma := by
  have lower := layout.lower
  have upper := layout.upper
  have starts := layout.starts
  have inside := page.lower
  have inside' := page.upper
  exact mmuTranslate1gb_eq boot (by omega) (by unfold kernelVma at upper; omega)

/-- With enough frames, `vmm_init` returns a space that maps the image and every physical page from the second one on, and
nothing else. -/
theorem vmmInit_mapped (debug : Bool) (boot : BootTables) (regions : PageRegions pmap)
    (below : ∀ region ∈ pmap, region.addr + region.sizeInPages * pageSizeInBytes < directLimit)
    (some : ∃ region ∈ pmap, ∃ pa, pageSizeInBytes ≤ pa ∧ region.Holds pa)
    (lasts : alloc.Lasts (1 + (kernelTables layout pmap).card) kernel.env) :
    ∃ kspace kernel', vmmInit alloc debug boot layout pmap kernel = .ok (kspace, kernel') ∧
      KernelMapped alloc layout pmap kspace kernel' := by
  obtain ⟨kspace, started, created, filling, empty⟩ := @vmmCreateSpace_filling _ alloc (kernelTables layout pmap)
    kernel higherHalfStart higherHalfStop lasts
  have needed : ∀ {va}, va ∈ layout.pages ++ directPages pmap → walkTables va ⊆ kernelTables layout pmap :=
    walkTablesOf_subset
  obtain ⟨kuefi, kcode, kdata, kernel₁, kernel₂, kernel₃, added₁, added₂, added₃, windows, listed⟩ :=
    layout.records filling empty
  obtain ⟨kernel₄, kernel₅, kernel₆, mapped₁, mapped₂, mapped₃, only, filled⟩ :=
    layout.mapped listed windows fun va inside => needed (List.mem_append_left _ inside)
  have listing : Listing alloc kspace (fun va flags =>
      layout.vmaStart ≤ va ∧ va < layout.pmmVmaStop ∧ layout.flags va = flags) kernel₆ :=
    ⟨_, _, windows.mapped only, layout.windows_denotes⟩
  obtain ⟨kernel', direct, whole⟩ := vmmInitDirectMapping_maps filled listing regions below some
    fun va inside => needed (List.mem_append_right _ inside)
  have checked : mmuTestKernelMapping boot layout.vmaStart layout.pmmVmaStop kspace kernel' = .ok () := by
    have upper := layout.upper
    refine (mmuTestKernelMapping_decides boot (layout.starts ▸ layout.rwAligned) layout.stopAligned
      (by unfold kernelVma at upper; omega)).ok_iff.mpr ?_
    intro va page
    rw [layout.boot_translates boot page, whole.translates page]
  refine ⟨kspace, kernel', ?_, whole⟩
  unfold vmmInit
  refine Outcome.bind_eq_ok.mpr ⟨_, created, Outcome.bind_eq_ok.mpr ⟨_, added₁, Outcome.bind_eq_ok.mpr ⟨_, added₂,
    Outcome.bind_eq_ok.mpr ⟨_, added₃, Outcome.bind_eq_ok.mpr ⟨_, mapped₁, Outcome.bind_eq_ok.mpr ⟨_, mapped₂,
    Outcome.bind_eq_ok.mpr ⟨_, mapped₃, Outcome.bind_eq_ok.mpr ⟨_, direct, ?_⟩⟩⟩⟩⟩⟩⟩⟩
  cases debug with
  | false => rfl
  | true =>
      have probed := whole.probes below
      simp only [if_true, checked, probed]
      rfl

end

/-- One page of each window at the start of the kernel image. -/
def threePageLayout : KernelLayout where
  vmaStart := kernelVma
  rwStart := kernelVma
  rwStop := kernelVma + 0x1000
  roStart := kernelVma + 0x1000
  roStop := kernelVma + 0x2000
  pmmVmaStop := kernelVma + 0x3000
  starts := rfl
  joins := rfl
  lower := by decide
  rwNonempty := by decide
  roNonempty := by decide
  dataNonempty := by decide
  upper := by decide
  rwAligned := by decide
  roAligned := by decide
  roStopAligned := by decide
  stopAligned := by decide

/-- Four tables in a row in the first gibibyte. -/
def fourBootTables : BootTables where
  pml4 := 0x100000
  pdpMid := 0x101000
  pdpLow := 0x102000
  pdpHigh := 0x103000
  alignedLow := by decide
  alignedMid := by decide
  alignedHigh := by decide
  below := by decide

theorem adjacentRegions_pages : PageRegions adjacentRegions := by
  refine ⟨by unfold Sorted; decide, ?_, by decide, by decide, by decide⟩
  exact List.pairwise_pair.mpr (Or.inr (by decide))

theorem adjacentRegions_holds : ∃ region ∈ adjacentRegions, ∃ pa, pageSizeInBytes ≤ pa ∧ region.Holds pa := by
  refine ⟨⟨0x2000, 1, .available, ⟨0, 0, NULL⟩⟩, by simp [adjacentRegions], 0x2000, by decide, ?_⟩
  exact ⟨by decide, by decide, by decide⟩

/-- The frames last for the tables of three pages of the image and two pages of memory. -/
theorem sixtyFourFrames_lasts :
    sixtyFourFrames.Lasts (1 + (kernelTables threePageLayout adjacentRegions).card) ⟨[], []⟩ := by
  have tables : (kernelTables threePageLayout adjacentRegions).card ≤ 15 := walkTablesOf_card_le _
  have frames : sixtyFourFrames.Lasts 16 ⟨[], []⟩ := ledgerAllocator_lasts _ (by decide)
  exact frames.mono (by omega)

end B0s

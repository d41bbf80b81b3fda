import B0s.Proof.Mm.PageTable

/-
This file proves that the upper entries of a walk keep the permission of the mapping that made them.
-/

namespace B0s
open TableForest

variable {σ : Type}

/-- These bits of an entry allow writes and user accesses. -/
def permissionBits : Nat := pageRw ||| pageUserRing

/-- An upper table grants nothing until its entry is present. -/
def Kernel.grants (kernel : Kernel σ) (space : Nat) (stem : List (Fin 512)) (slot : Fin 512) : Option Nat :=
  if kernel.leafAt space stem slot &&& pagePresent = 0 then none
  else some (kernel.leafAt space stem slot &&& permissionBits)

/-- The walk of an address passes one entry of each upper table. -/
def walkSlots (va : Nat) : List (List (Fin 512) × Fin 512) :=
  [([], ⟨pml4eIndex va, pml4eIndex_lt va⟩),
    ([⟨pml4eIndex va, pml4eIndex_lt va⟩], ⟨pdptIndex va, pdptIndex_lt va⟩),
    ([⟨pml4eIndex va, pml4eIndex_lt va⟩, ⟨pdptIndex va, pdptIndex_lt va⟩], ⟨pdtIndex va, pdtIndex_lt va⟩)]

/-- A frame address has no permission bits. -/
theorem or_permissionBits {frame : Nat} (aligned : frame % pageSizeInBytes = 0) (bits : Nat) :
    (frame ||| bits) &&& permissionBits = bits &&& permissionBits := by
  have low : 4095 &&& permissionBits = permissionBits := by decide
  have zero : frame &&& permissionBits = 0 := by
    rw [← low, ← Nat.and_assoc, Nat.and_two_pow_sub_one_eq_mod frame 12]
    change frame % pageSizeInBytes &&& permissionBits = 0
    rw [aligned, Nat.zero_and]
  rw [Nat.and_or_distrib_right, zero, Nat.zero_or]

/-- The upper entries leave out the global bit only. -/
theorem global_permissionBits (perm : Nat) :
    perm &&& (2 ^ 64 - 1 - pageGlobal) &&& permissionBits = perm &&& permissionBits := by
  have mask : (2 ^ 64 - 1 - pageGlobal) &&& permissionBits = permissionBits := by decide
  rw [Nat.and_assoc, mask]

/-- A default that is given twice is given once. -/
theorem or_twice {A : Type} (value given : Option A) (first second : Prop) [Decidable first] [Decidable second] :
    (if second then (if first then value.or given else value).or given else if first then value.or given else value) =
      if first ∨ second then value.or given else value := by
  have idempotent : (value.or given).or given = value.or given := by
    cases value with
    | none => simp
    | some _ => rfl
  by_cases one : first
  · simp [one, idempotent]
  · simp [one]

section
variable {frames : FrameAllocator σ} {member : Nat → Prop} {kernel kernel' : Kernel σ} {space : Nat}
  {stem : List (Fin 512)} {table : Nat} {slot : Fin 512}

theorem Kernel.grants_congr {space' : Nat} {path : List (Fin 512)} {index : Fin 512}
    (same : kernel'.leafAt space' path index = kernel.leafAt space' path index) :
    kernel'.grants space' path index = kernel.grants space' path index := by
  unfold Kernel.grants
  rw [same]

/-- An absent table gets the permission of the call, and every other entry stays. -/
theorem mmuEnsureTable_grants (slot : Fin 512) (tables : PageTables frames member kernel) (belongs : member space)
    (short : stem.length < 3)
    (reached : descend (tableBelow kernel.word) (kernel.root space) stem = some table)
    {permWoG : Nat} (small : permWoG < pageSizeInBytes) {below : Nat}
    (ensured : mmuEnsureTable frames (entryAddr table slot) permWoG kernel = .ok (below, kernel'))
    {space' : Nat} {path : List (Fin 512)} (index : Fin 512) (belongs' : member space') (short' : path.length < 3) :
    kernel'.grants space' path index =
      if space' = space ∧ path = stem ∧ index = slot then
        (kernel.grants space' path index).or (some (permWoG &&& permissionBits))
      else kernel.grants space' path index := by
  have entry : kernel.leafAt space stem slot = kernel.word (entryAddr table slot) :=
    Kernel.leafAt_of_some reached slot
  unfold mmuEnsureTable at ensured
  split_ifs at ensured with absent
  · obtain ⟨⟨frame, env⟩, returned, final⟩ := Outcome.bind_eq_ok.mp ensured
    obtain ⟨-, hung⟩ := Prod.mk.inj (Except.ok.inj final)
    have grown : kernel.hangTable env (entryAddr table slot) (dmP2V frame)
        (frame ||| pagePresent ||| permWoG) = kernel' := hung
    have aligned := (frames.xalloc_aligned _ _ _ returned).1
    have leads : entryTable (frame ||| pagePresent ||| permWoG) = dmP2V frame := by
      rw [Nat.or_assoc, entryTable_or aligned]
      exact Nat.or_lt_two_pow (by decide : pagePresent < 2 ^ 12) small
    have hangs : Hangs frames member kernel env space stem table slot (dmP2V frame)
        (frame ||| pagePresent ||| permWoG) :=
      ⟨belongs, short, reached, absent, xalloc_newTable returned, or_present_and _ _, leads⟩
    split_ifs with here
    · obtain ⟨rfl, rfl, rfl⟩ := here
      have before : kernel.grants space' path index = none := by
        unfold Kernel.grants
        rw [entry, if_pos absent]
      have bits : (frame ||| pagePresent ||| permWoG) &&& permissionBits = permWoG &&& permissionBits := by
        rw [Nat.or_assoc, or_permissionBits aligned, Nat.and_or_distrib_right]
        exact Nat.zero_or _
      rw [before, ← grown, Kernel.grants, hangs.entryAt_self tables, if_neg (or_present_and _ _), bits]
      rfl
    · rw [← grown]
      exact Kernel.grants_congr (hangs.entryAt tables belongs' (le_of_lt short') here)
  · obtain ⟨-, rfl⟩ := Prod.mk.inj (Except.ok.inj ensured)
    split_ifs with here
    · obtain ⟨rfl, rfl, rfl⟩ := here
      have before : kernel.grants space' path index =
          some (kernel.word (entryAddr table index) &&& permissionBits) := by
        unfold Kernel.grants
        rw [entry, if_neg absent]
      rw [before]
      rfl
    · rfl

/-- A write to a last-level table keeps the upper entries. -/
theorem PageTables.setLeaf_grants (slot : Fin 512) (tables : PageTables frames member kernel) (belongs : member space)
    {walk : List (Fin 512)} (length : walk.length = 3)
    (reached : descend (tableBelow kernel.word) (kernel.root space) walk = some table) (value : Nat)
    {space' : Nat} {path : List (Fin 512)} {index : Fin 512} (belongs' : member space') (short : path.length < 3) :
    (kernel.setWord (entryAddr table slot) value).grants space' path index = kernel.grants space' path index := by
  apply Kernel.grants_congr
  have same : descend (tableBelow (kernel.setWord (entryAddr table slot) value).word) (kernel.root space') path =
      descend (tableBelow kernel.word) (kernel.root space') path :=
    descend_congr belongs' (le_of_lt short) (tables.setLeaf_descend belongs length reached _ _)
  cases found : descend (tableBelow kernel.word) (kernel.root space') path with
  | none =>
      rw [Kernel.leafAt_of_none found]
      exact Kernel.leafAt_of_none (same.trans found) index
  | some other =>
      have different := tables.ne_of_shorter belongs' belongs short length found reached
      have aligned := (tables.backed table ⟨space, walk, belongs, le_of_eq length, reached⟩).aligned
      have aligned' := (tables.backed other ⟨space', path, belongs', le_of_lt short, found⟩).aligned
      rw [Kernel.leafAt_of_some found, Kernel.leafAt_of_some (same.trans found)]
      exact setWord_entry _ _ aligned aligned' fun same => different same.1.symm

/-- A mapping gives its permission to the absent entries of its walk. -/
theorem mmuMapPage_grants (tables : PageTables frames member kernel) (belongs : member space)
    {va pa perm ret : Nat} (small : perm < pageSizeInBytes)
    (mapped : mmuMapPage frames space va pa perm kernel = .ok (ret, kernel'))
    {space' : Nat} {path : List (Fin 512)} {index : Fin 512} (belongs' : member space') (short : path.length < 3) :
    kernel'.grants space' path index =
      if space' = space ∧ (path, index) ∈ walkSlots va then
        (kernel.grants space' path index).or (some (perm &&& permissionBits))
      else kernel.grants space' path index := by
  have smallWoG : perm &&& (2 ^ 64 - 1 - pageGlobal) < pageSizeInBytes :=
    lt_of_le_of_lt Nat.and_le_left small
  unfold mmuMapPage at mapped
  obtain ⟨⟨pdpt, first⟩, ensured, mapped⟩ := Outcome.bind_eq_ok.mp mapped
  obtain ⟨⟨pdt, second⟩, ensured', mapped⟩ := Outcome.bind_eq_ok.mp mapped
  obtain ⟨⟨pt, third⟩, ensured'', mapped⟩ := Outcome.bind_eq_ok.mp mapped
  obtain ⟨-, rfl⟩ := Prod.mk.inj (Except.ok.inj mapped)
  have root : descend (tableBelow kernel.word) (kernel.root space) [] = some (kernel.root space) := rfl
  obtain ⟨grown, reached⟩ := mmuEnsureTable_grows ⟨pml4eIndex va, pml4eIndex_lt va⟩ tables belongs
    (by decide) root smallWoG ensured
  obtain ⟨grown', reached'⟩ := mmuEnsureTable_grows ⟨pdptIndex va, pdptIndex_lt va⟩ grown.tables
    belongs (by simp) reached smallWoG ensured'
  obtain ⟨grown'', reached''⟩ := mmuEnsureTable_grows ⟨pdtIndex va, pdtIndex_lt va⟩ grown'.tables
    belongs (by simp) reached' smallWoG ensured''
  have one := mmuEnsureTable_grants ⟨pml4eIndex va, pml4eIndex_lt va⟩ tables belongs (by decide) root smallWoG
    ensured index belongs' short
  have two := mmuEnsureTable_grants ⟨pdptIndex va, pdptIndex_lt va⟩ grown.tables belongs (by simp) reached smallWoG
    ensured' index belongs' short
  have three := mmuEnsureTable_grants ⟨pdtIndex va, pdtIndex_lt va⟩ grown'.tables belongs (by simp) reached' smallWoG
    ensured'' index belongs' short
  have walked : descend (tableBelow third.word) (third.root space) (walkPath va) = some pt := reached''
  have written : (third.setWord (entryAddr pt (walkIndex va)) (pa ||| perm)).grants space' path index =
      third.grants space' path index :=
    grown''.tables.setLeaf_grants _ belongs rfl walked _ belongs' short
  rw [global_permissionBits] at one two three
  refine written.trans ?_
  rw [three, two, one, or_twice, or_twice]
  apply if_congr _ rfl rfl
  simp only [walkSlots, List.mem_cons, Prod.mk.injEq, List.not_mem_nil, or_false, List.nil_append,
    List.singleton_append]
  tauto

/-- An initialised space has no upper entries, and the other spaces keep theirs. -/
theorem mmuInit_grants {member' : Nat → Prop} (tables : PageTables frames member kernel)
    (only : ∀ other, member' other → other ≠ space → member other)
    (done : mmuInit frames space kernel = .ok kernel') {space' : Nat} {path : List (Fin 512)} (index : Fin 512)
    (belongs : member' space') (short : path.length < 3) :
    kernel'.grants space' path index = if space' = space then none else kernel.grants space' path index := by
  unfold mmuInit at done
  obtain ⟨⟨frame, env⟩, returned, done⟩ := Outcome.bind_eq_ok.mp done
  have planted : kernel.plantRoot env space (dmP2V frame) = kernel' := Except.ok.inj done
  have fresh := xalloc_newTable returned
  rw [← planted]
  split_ifs with same
  · rw [same, Kernel.grants, tables.plantRoot_self fresh only, Nat.zero_and, if_pos rfl]
  · exact Kernel.grants_congr (tables.plantRoot_other fresh only belongs same (le_of_lt short) index)

/-- The processor allows to a page what all four entries of its walk allow. -/
def mmuEffective (space va : Nat) (kernel : Kernel σ) : Nat :=
  let pml4eEntry := kernel.word (entryAddr (kernel.root space) (pml4eIndex va))
  let pdptEntry := kernel.word (entryAddr (entryTable pml4eEntry) (pdptIndex va))
  let pdtEntry := kernel.word (entryAddr (entryTable pdptEntry) (pdtIndex va))
  let ptEntry := kernel.word (entryAddr (entryTable pdtEntry) (ptIndex va))
  pml4eEntry &&& pdptEntry &&& pdtEntry &&& ptEntry &&& permissionBits

/-- The last upper entry of the walk of an address. -/
def lastSlotStem (va : Nat) : List (Fin 512) :=
  [⟨pml4eIndex va, pml4eIndex_lt va⟩, ⟨pdptIndex va, pdptIndex_lt va⟩]

def lastSlot (va : Nat) : Fin 512 := ⟨pdtIndex va, pdtIndex_lt va⟩

/-- The translation reads the leaf entry once the last upper entry is present. -/
theorem mmuTranslate4k_grants (kernel : Kernel σ) (space va : Nat) (aligned : va % pageSizeInBytes = 0) :
    mmuTranslate4k (kernel.root space) va kernel =
      if kernel.grants space (lastSlotStem va) (lastSlot va) = none then 2 ^ 64 - 1
      else pageAddr (mmuLeaf space va kernel) := by
  have offset : va &&& (pageSizeInBytes - 1) = 0 :=
    (Nat.and_two_pow_sub_one_eq_mod va 12).trans aligned
  simp only [mmuTranslate4k, mmuLeaf, Kernel.grants, Kernel.leafAt, lastSlotStem, lastSlot, descend, tableBelow, offset,
    Nat.or_zero]
  split_ifs <;> simp_all

/-- A mask distributes over four words. -/
theorem and_mask (first second third fourth mask : Nat) : first &&& second &&& third &&& fourth &&& mask =
    (first &&& mask) &&& (second &&& mask) &&& (third &&& mask) &&& (fourth &&& mask) := by
  apply Nat.eq_of_testBit_eq
  intro index
  simp only [Nat.testBit_and]
  cases mask.testBit index <;> simp

/-- A granting entry of a reached table is present and leads to the next table. -/
theorem Kernel.grants_descend {bits : Nat}
    (reached : descend (tableBelow kernel.word) (kernel.root space) stem = some table)
    (granted : kernel.grants space stem slot = some bits) :
    kernel.word (entryAddr table slot) &&& permissionBits = bits ∧
      descend (tableBelow kernel.word) (kernel.root space) (stem ++ [slot]) =
        some (entryTable (kernel.word (entryAddr table slot))) := by
  unfold Kernel.grants at granted
  rw [Kernel.leafAt_of_some reached] at granted
  split_ifs at granted with absent
  refine ⟨Option.some.inj granted, ?_⟩
  rw [descend_concat, reached]
  simp [tableBelow, absent]

/-- The upper entries and the leaf entry of a walk decide what the processor allows. -/
theorem mmuEffective_eq {granted granted' granted'' : Nat} {va : Nat}
    (pml4e : kernel.grants space [] ⟨pml4eIndex va, pml4eIndex_lt va⟩ = some granted)
    (pdpt : kernel.grants space [⟨pml4eIndex va, pml4eIndex_lt va⟩] ⟨pdptIndex va, pdptIndex_lt va⟩ = some granted')
    (pdt : kernel.grants space (lastSlotStem va) (lastSlot va) = some granted'') :
    mmuEffective space va kernel =
      granted &&& granted' &&& granted'' &&& (mmuLeaf space va kernel &&& permissionBits) := by
  obtain ⟨first, reached⟩ := Kernel.grants_descend (descend_nil _ _) pml4e
  obtain ⟨second, reached'⟩ := Kernel.grants_descend reached pdpt
  obtain ⟨third, reached''⟩ := Kernel.grants_descend reached' pdt
  have leaf : mmuLeaf space va kernel = kernel.word (entryAddr (entryTable (kernel.word (entryAddr (entryTable
      (kernel.word (entryAddr (entryTable (kernel.word (entryAddr (kernel.root space) (pml4eIndex va))))
        (pdptIndex va)))) (pdtIndex va)))) (ptIndex va)) := by
    rw [mmuLeaf_eq]
    exact Kernel.leafAt_of_some reached'' _
  rw [← first, ← second, ← third, leaf, ← and_mask]
  rfl

end

end B0s

import B0s.Library.Runs
import B0s.Proof.Mm.Backing
import B0s.Proof.Mm.PageGrant
import B0s.Proof.Mm.PageTableRun

/-
This file follows runs of mappings and unmappings. It proves when a page gets the permission of its
last mapping, and when the translation tells mapped pages from unmapped ones.
-/

namespace B0s
open TableForest Runs

variable {σ : Type}

/-- A client of the page tables sets up a space, maps a page, or unmaps one. -/
inductive PageCall where
  | init (space : Nat)
  | map (space va pa perm : Nat)
  | unmap (space va : Nat)
  deriving DecidableEq, Repr

/-- The history of each space since its initialisation has the last mapping of each page and the
permission of the first call that walked through each upper entry. -/
structure PageHistory where
  ready : Nat → Prop
  last : Nat → Nat → Option (Nat × Nat)
  first : Nat → List (Fin 512) → Fin 512 → Option Nat

def PageHistory.empty : PageHistory := ⟨fun _ => False, fun _ _ => none, fun _ _ _ => none⟩

def PageHistory.create (space : Nat) (history : PageHistory) : PageHistory where
  ready other := history.ready other ∨ other = space
  last := Function.update history.last space fun _ => none
  first := Function.update history.first space fun _ _ => none

def PageHistory.walk (space va perm : Nat) (mapping : Option (Nat × Nat)) (history : PageHistory) : PageHistory where
  ready := history.ready
  last := Function.update history.last space (Function.update (history.last space) va mapping)
  first other path index :=
    if other = space ∧ (path, index) ∈ walkSlots va then (history.first other path index).or (some perm)
    else history.first other path index

/-- An unmapping walks with no permission. -/
def PageCall.record : PageCall → PageHistory → PageHistory
  | .init space => PageHistory.create space
  | .map space va pa perm => PageHistory.walk space va perm (some (pa, perm))
  | .unmap space va => PageHistory.walk space va 0 none

def PageCall.run (frames : FrameAllocator σ) : PageCall → Kernel σ → Outcome (Kernel σ)
  | .init space, kernel => mmuInit frames space kernel
  | .map space va pa perm, kernel => (mmuMapPage frames space va pa perm kernel).map Prod.snd
  | .unmap space va, kernel => (mmuUnmapPage frames space va kernel).map Prod.snd

/-- The page tables with their history. -/
structure PageState (σ : Type) where
  kernel : Kernel σ
  history : PageHistory

def pageStep (frames : FrameAllocator σ) (call : PageCall) (state state' : PageState σ) : Prop :=
  call.run frames state.kernel = .ok state'.kernel ∧ state'.history = call.record state.history

/-- A mapping is present. The client never frees a page table by unmapping a page that maps it. -/
def PageCall.Valid (frames : FrameAllocator σ) : PageCall → PageState σ → Prop
  | .init _, _ => True
  | .map space va pa perm, state =>
      MapRequest state.history.ready space va pa perm ∧ perm &&& pagePresent ≠ 0
  | .unmap space va, state => state.history.ready space ∧ CanonicalPage va ∧
      ∀ old middle, mmuMapPage frames space va 0 0 state.kernel = .ok (old, middle) →
        ¬middle.IsTable state.history.ready (dmP2V (pageAddr old))

/-- The page tables hold what their history says. -/
structure PageState.Shows (frames : FrameAllocator σ) (state : PageState σ) : Prop where
  tables : PageTables frames state.history.ready state.kernel
  leaf : ∀ space va, state.history.ready space → CanonicalPage va →
    mmuLeaf space va state.kernel = (state.history.last space va).elim 0 fun mapping => mapping.1 ||| mapping.2
  request : ∀ space va pa perm, state.history.last space va = some (pa, perm) →
    MapRequest state.history.ready space va pa perm
  grants : ∀ space path index, state.history.ready space → path.length < 3 →
    state.kernel.grants space path index = (state.history.first space path index).map (· &&& permissionBits)
  walked : ∀ space va, state.history.last space va ≠ none → ∀ slot ∈ walkSlots va,
    state.history.first space slot.1 slot.2 ≠ none

/-- Without a ready space there is nothing to show. -/
theorem PageState.shows_empty (frames : FrameAllocator σ) (kernel : Kernel σ) :
    PageState.Shows frames ⟨kernel, .empty⟩ where
  tables := (tablesDenote_empty frames kernel).tables
  leaf _ _ belongs := belongs.elim
  request _ _ _ _ mapped := nomatch mapped
  grants _ _ _ belongs := belongs.elim
  walked _ _ mapped := absurd rfl mapped

section
variable {frames : FrameAllocator σ} {kernel kernel' : Kernel σ} {history : PageHistory} {space va : Nat}

/-- The first call through an entry stays the first. -/
theorem PageHistory.walk_first {perm : Nat} {mapping : Option (Nat × Nat)} {other : Nat} {path : List (Fin 512)}
    {index : Fin 512} (before : history.first other path index ≠ none) :
    (history.walk space va perm mapping).first other path index = history.first other path index := by
  obtain ⟨first, found⟩ := Option.ne_none_iff_exists'.mp before
  simp only [PageHistory.walk, found, Option.some_or, ite_self]

/-- An initialisation keeps the tables and their history in step. -/
theorem PageState.Shows.init (shows : PageState.Shows frames ⟨kernel, history⟩)
    (done : mmuInit frames space kernel = .ok kernel') :
    PageState.Shows frames ⟨kernel', history.create space⟩ := by
  have only : ∀ other, (history.create space).ready other → other ≠ space → history.ready other :=
    fun other belongs different => belongs.resolve_right different
  have set := mmuInit_rootSet shows.tables only done
  refine ⟨set.tables, ?_, ?_, ?_, ?_⟩
  · intro other page belongs canonical
    by_cases same : other = space
    · subst same
      simp [PageHistory.create, set.self]
    · have old := shows.leaf other page (only other belongs same) canonical
      simp only [PageHistory.create, Function.update_of_ne same]
      rw [set.other belongs same]
      exact old
  · intro other page pa perm mapped
    by_cases same : other = space
    · subst same
      simp [PageHistory.create] at mapped
    · simp only [PageHistory.create, Function.update_of_ne same] at mapped
      have old := shows.request other page pa perm mapped
      exact { old with ready := Or.inl old.ready }
  · intro other path index belongs short
    rw [mmuInit_grants shows.tables only done index belongs short]
    by_cases same : other = space
    · subst same
      simp [PageHistory.create]
    · simp only [PageHistory.create, Function.update_of_ne same, if_neg same]
      exact shows.grants other path index (only other belongs same) short
  · intro other page mapped slot member
    by_cases same : other = space
    · subst same
      simp [PageHistory.create] at mapped
    · simp only [PageHistory.create, Function.update_of_ne same] at mapped ⊢
      exact shows.walked other page mapped slot member

/-- A walk that sets a leaf entry keeps the tables and their history in step. -/
theorem PageState.Shows.walk (shows : PageState.Shows frames ⟨kernel, history⟩) {pa perm old : Nat}
    {mapping : Option (Nat × Nat)} (belongs : history.ready space) (page : CanonicalPage va)
    (small : perm < pageSizeInBytes)
    (value : pa ||| perm = mapping.elim 0 fun mapping => mapping.1 ||| mapping.2)
    (request : ∀ pa perm, mapping = some (pa, perm) → MapRequest history.ready space va pa perm)
    (mapped : mmuMapPage frames space va pa perm kernel = .ok (old, kernel')) :
    PageState.Shows frames ⟨kernel', history.walk space va perm mapping⟩ := by
  obtain ⟨-, set⟩ := mmuMapPage_leafSet shows.tables belongs page small mapped
  refine ⟨set.tables, ?_, ?_, ?_, ?_⟩
  · intro other page' belongs' canonical
    by_cases same : other = space ∧ page' = va
    · obtain ⟨rfl, rfl⟩ := same
      simp only [PageHistory.walk, Function.update_self]
      rw [set.self, value]
    · rw [set.other belongs' canonical same, shows.leaf other page' belongs' canonical]
      by_cases here : other = space
      · subst here
        have elsewhere : page' ≠ va := fun equal => same ⟨rfl, equal⟩
        simp [PageHistory.walk, elsewhere]
      · simp [PageHistory.walk, here]
  · intro other page' pa' perm' mapped'
    by_cases same : other = space ∧ page' = va
    · obtain ⟨rfl, rfl⟩ := same
      simp only [PageHistory.walk, Function.update_self] at mapped'
      exact request pa' perm' mapped'
    · apply shows.request other page' pa' perm'
      by_cases here : other = space
      · subst here
        have elsewhere : page' ≠ va := fun equal => same ⟨rfl, equal⟩
        simpa [PageHistory.walk, elsewhere] using mapped'
      · simpa [PageHistory.walk, here] using mapped'
  · intro other path index belongs' short
    rw [mmuMapPage_grants shows.tables belongs small mapped belongs' short, shows.grants other path index belongs' short]
    simp only [PageHistory.walk]
    split_ifs with here
    · cases history.first other path index <;> rfl
    · rfl
  · intro other page' mapped' slot member
    by_cases same : other = space ∧ page' = va
    · obtain ⟨rfl, rfl⟩ := same
      simp [PageHistory.walk, member]
    · have before : history.last other page' ≠ none := by
        by_cases here : other = space
        · subst here
          have elsewhere : page' ≠ va := fun equal => same ⟨rfl, equal⟩
          simpa [PageHistory.walk, elsewhere] using mapped'
        · simpa [PageHistory.walk, here] using mapped'
      have first := shows.walked other page' before slot member
      rw [PageHistory.walk_first first]
      exact first

/-- The release of a frame that is no table keeps the tables. -/
theorem PageState.Shows.free (shows : PageState.Shows frames ⟨kernel, history⟩) {frame : Nat} {env : σ}
    (spares : ¬kernel.IsTable history.ready (dmP2V frame)) (freed : frames.pmmFree frame kernel.env = .ok env) :
    PageState.Shows frames ⟨{ kernel with env := env }, history⟩ where
  tables := by
    refine ⟨shows.tables.forest, ?_⟩
    intro table reached
    obtain ⟨base, held, aligned, bounded, same⟩ := shows.tables.backed table reached
    have kept : base ≠ frame := by
      rintro rfl
      exact spares (same ▸ reached)
    exact ⟨base, (frames.free_held _ _ _ freed base).mpr ⟨held, kept⟩, aligned, bounded, same⟩
  leaf := shows.leaf
  request := shows.request
  grants := shows.grants
  walked := shows.walked

/-- A valid call keeps the tables and their history in step. -/
theorem PageState.Shows.step {state state' : PageState σ} (shows : state.Shows frames) {call : PageCall}
    (valid : call.Valid frames state) (steps : pageStep frames call state state') : state'.Shows frames := by
  obtain ⟨kernel, history⟩ := state
  obtain ⟨kernel', history'⟩ := state'
  obtain ⟨done, recorded⟩ := steps
  dsimp only at done recorded
  subst recorded
  cases call with
  | init space => exact shows.init done
  | map space va pa perm =>
      obtain ⟨request, -⟩ := valid
      obtain ⟨⟨old, middle⟩, mapped, rfl⟩ := Outcome.map_eq_ok.mp done
      apply shows.walk request.ready request.page request.small rfl _ mapped
      rintro pa' perm' same
      obtain ⟨rfl, rfl⟩ := Prod.mk.inj (Option.some.inj same)
      exact request
  | unmap space va =>
      obtain ⟨belongs, page, spares⟩ := valid
      obtain ⟨⟨old, last⟩, unmapped, rfl⟩ := Outcome.map_eq_ok.mp done
      obtain ⟨⟨pa, middle⟩, mapped, rest⟩ := Outcome.bind_eq_ok.mp unmapped
      obtain ⟨env, freed, rest⟩ := Outcome.bind_eq_ok.mp rest
      obtain ⟨-, rfl⟩ := Prod.mk.inj (Except.ok.inj rest)
      have walked : PageState.Shows frames ⟨middle, history.walk space va 0 none⟩ := by
        apply shows.walk belongs page (by decide) rfl _ mapped
        rintro pa' perm' ⟨⟩
      exact walked.free (spares pa middle mapped) freed

/-- Some permission passes three entries exactly when each of them grants it. -/
theorem and_eq_iff (first second third perm : Nat) : first &&& second &&& third &&& perm = perm ↔
    perm &&& first = perm ∧ perm &&& second = perm ∧ perm &&& third = perm := by
  constructor
  · intro same
    have passes : ∀ other, first &&& second &&& third &&& perm &&& other = first &&& second &&& third &&& perm →
        perm &&& other = perm := by
      intro other kept
      rwa [same] at kept
    refine ⟨passes first ?_, passes second ?_, passes third ?_⟩ <;>
    · apply Nat.eq_of_testBit_eq
      intro index
      simp only [Nat.testBit_and]
      cases first.testBit index <;> cases second.testBit index <;> cases third.testBit index <;> simp
  · rintro ⟨one, two, three⟩
    rw [Nat.and_comm, ← Nat.and_assoc, ← Nat.and_assoc, one, two, three]

/-- Each upper entry of the walk was made by a call whose permission includes this one. -/
def PageHistory.SpansGrant (history : PageHistory) (space va perm : Nat) : Prop :=
  ∀ slot ∈ walkSlots va, ∀ first ∈ history.first space slot.1 slot.2,
    perm &&& permissionBits &&& first = perm &&& permissionBits

/-- A mapped page has its permission exactly when the calls that made its upper entries include it. -/
theorem PageState.Shows.effective_iff {state : PageState σ} (shows : state.Shows frames) {pa perm : Nat}
    (mapped : state.history.last space va = some (pa, perm)) :
    mmuEffective space va state.kernel = perm &&& permissionBits ↔ state.history.SpansGrant space va perm := by
  have request := shows.request space va pa perm mapped
  have walked := shows.walked space va (by simp [mapped])
  have leaf := shows.leaf space va request.ready request.page
  simp only [walkSlots, List.forall_mem_cons, List.not_mem_nil, false_implies, implies_true, and_true] at walked
  obtain ⟨one, two, three⟩ := walked
  obtain ⟨first, found⟩ := Option.ne_none_iff_exists'.mp one
  obtain ⟨second, found'⟩ := Option.ne_none_iff_exists'.mp two
  obtain ⟨third, found''⟩ := Option.ne_none_iff_exists'.mp three
  have granted := shows.grants space [] ⟨pml4eIndex va, pml4eIndex_lt va⟩ request.ready (by simp)
  have granted' := shows.grants space [⟨pml4eIndex va, pml4eIndex_lt va⟩] ⟨pdptIndex va, pdptIndex_lt va⟩
    request.ready (by simp)
  have granted'' := shows.grants space (lastSlotStem va) (lastSlot va) request.ready (by simp [lastSlotStem])
  rw [found] at granted
  rw [found'] at granted'
  rw [lastSlotStem, lastSlot, found''] at granted''
  have masked : ∀ other, perm &&& permissionBits &&& (other &&& permissionBits) = perm &&& permissionBits &&& other := by
    intro other
    rw [Nat.and_comm other, ← Nat.and_assoc, Nat.and_assoc perm, Nat.and_self]
  rw [mmuEffective_eq granted granted' granted'', leaf, mapped, Option.elim_some, or_permissionBits request.aligned,
    and_eq_iff, masked, masked, masked]
  simp only [PageHistory.SpansGrant, walkSlots, List.forall_mem_cons, List.not_mem_nil, false_implies, implies_true,
    and_true, found, found', found'', Option.mem_def, Option.some.injEq, forall_eq']

/-- The translation of a page is right exactly when the page is mapped or no call has walked through its
last upper entry. -/
theorem PageState.Shows.translates_iff {state : PageState σ} (shows : state.Shows frames)
    (belongs : state.history.ready space) (page : CanonicalPage va) :
    mmuTranslate4k (state.kernel.root space) va state.kernel =
        (state.history.last space va).elim (2 ^ 64 - 1) Prod.fst ↔
      state.history.last space va ≠ none ∨ state.history.first space (lastSlotStem va) (lastSlot va) = none := by
  have leaf := shows.leaf space va belongs page
  have granted := shows.grants space (lastSlotStem va) (lastSlot va) belongs (by simp [lastSlotStem])
  have walked := shows.walked space va
  rw [mmuTranslate4k_grants _ _ _ page.aligned, granted, leaf]
  simp only [Option.map_eq_none_iff]
  cases mapped : state.history.last space va with
  | none =>
      have zero : pageAddr 0 ≠ 2 ^ 64 - 1 := by decide
      by_cases first : state.history.first space (lastSlotStem va) (lastSlot va) = none
      · simp [first]
      · simpa [first] using zero
  | some mapping =>
      obtain ⟨pa, perm⟩ := mapping
      have request := shows.request space va pa perm mapped
      have first := walked (by simp [mapped]) (lastSlotStem va, lastSlot va) (by simp [walkSlots, lastSlotStem, lastSlot])
      simp [first, pageAddr_or request.aligned request.bounded request.small]

/-- A valid run keeps the tables and their history in step. -/
theorem PageState.Shows.run {calls : List PageCall} {state final : PageState σ} (shows : state.Shows frames)
    (along : Along (pageStep frames) (PageCall.Valid frames) calls state)
    (path : Path (pageStep frames) calls state final) : final.Shows frames := by
  have keeps : ∀ call (state state' : PageState σ), state.Shows frames → call.Valid frames state →
      pageStep frames call state state' → state'.Shows frames :=
    fun call state state' shows valid steps => shows.step valid steps
  exact Path.keeps keeps shows along path

/-- After every run the walk of a mapped page allows the writes and the user accesses of its last mapping
exactly when the first calls through its upper entries allow them. -/
theorem pageRun_effective_iff (frames : FrameAllocator σ) (kernel : Kernel σ) (calls : List PageCall)
    (final : PageState σ) (along : Along (pageStep frames) (PageCall.Valid frames) calls ⟨kernel, .empty⟩)
    (path : Path (pageStep frames) calls ⟨kernel, .empty⟩ final) (space va pa perm : Nat)
    (mapped : final.history.last space va = some (pa, perm)) :
    mmuEffective space va final.kernel = perm &&& permissionBits ↔ final.history.SpansGrant space va perm :=
  ((PageState.shows_empty frames kernel).run along path).effective_iff mapped

/-- After every run the translation gives the frame of each mapped page, and it gives all ones for an
unmapped page exactly when no call has walked through its last upper entry. -/
theorem pageRun_translates_iff (frames : FrameAllocator σ) (kernel : Kernel σ) (calls : List PageCall)
    (final : PageState σ) (along : Along (pageStep frames) (PageCall.Valid frames) calls ⟨kernel, .empty⟩)
    (path : Path (pageStep frames) calls ⟨kernel, .empty⟩ final) (space va : Nat)
    (belongs : final.history.ready space) (page : CanonicalPage va) :
    mmuTranslate4k (final.kernel.root space) va final.kernel =
        (final.history.last space va).elim (2 ^ 64 - 1) Prod.fst ↔
      final.history.last space va ≠ none ∨ final.history.first space (lastSlotStem va) (lastSlot va) = none :=
  ((PageState.shows_empty frames kernel).run along path).translates_iff belongs page

def runPageCalls (frames : FrameAllocator σ) : List PageCall → Kernel σ → Outcome (Kernel σ)
  | [], kernel => .ok kernel
  | call :: calls, kernel => call.run frames kernel >>= runPageCalls frames calls

def recordAll (calls : List PageCall) (history : PageHistory) : PageHistory :=
  calls.foldl (fun history call => call.record history) history

/-- A path ends in the kernel that the calls return and in their history. -/
theorem path_iff {calls : List PageCall} {state final : PageState σ} : Path (pageStep frames) calls state final ↔
    runPageCalls frames calls state.kernel = .ok final.kernel ∧ final.history = recordAll calls state.history := by
  induction calls generalizing state with
  | nil =>
      obtain ⟨kernel, history⟩ := state
      obtain ⟨kernel', history'⟩ := final
      simp [Runs.Path, runPageCalls, recordAll, eq_comm]
  | cons call calls ih =>
      simp only [Runs.Path, ih, runPageCalls, Outcome.bind_eq_ok]
      constructor
      · rintro ⟨middle, ⟨first, recorded⟩, rest, later⟩
        rw [recorded] at later
        exact ⟨⟨middle.kernel, first, rest⟩, later⟩
      · rintro ⟨⟨middle, first, rest⟩, later⟩
        exact ⟨⟨middle, call.record state.history⟩, ⟨first, rfl⟩, rest, later⟩

/-- Present mappings of aligned pages make a valid run. -/
theorem along_maps {space : Nat} {maps : List (Nat × Nat × Nat)}
    (each : ∀ map ∈ maps, MapRequest (fun _ => True) space map.1 map.2.1 map.2.2 ∧ map.2.2 &&& pagePresent ≠ 0)
    {state : PageState σ} (ready : state.history.ready space) :
    Along (pageStep frames) (PageCall.Valid frames) (maps.map fun map => .map space map.1 map.2.1 map.2.2) state := by
  induction maps generalizing state with
  | nil => trivial
  | cons map maps ih =>
      obtain ⟨request, present⟩ := each map List.mem_cons_self
      refine ⟨⟨{ request with ready := ready }, present⟩, ?_⟩
      intro state' steps
      apply ih fun other member => each other (List.mem_cons_of_mem _ member)
      rw [steps.2]
      exact ready

end

/-- A kernel page for reading and behind it one for writing. -/
def readOnlyFirst : List (Nat × Nat × Nat) := [(0x400000, 0x5000, pageKernelRo), (0x401000, 0x6000, pageKernelRw)]

/-- A user page for writing and behind it one for reading. -/
def writableFirst : List (Nat × Nat × Nat) := [(0x400000, 0x5000, pageUserRw), (0x401000, 0x6000, pageUserRo)]

def mapAll (maps : List (Nat × Nat × Nat)) : List PageCall :=
  .init 1 :: maps.map fun map => .map 1 map.1 map.2.1 map.2.2

abbrev sixtyFourPages : FrameAllocator Ledger := (ledgerAllocator 64 (by decide)).toFrameAllocator

theorem mapAll_along {maps : List (Nat × Nat × Nat)}
    (each : ∀ map ∈ maps, MapRequest (fun _ => True) 1 map.1 map.2.1 map.2.2 ∧ map.2.2 &&& pagePresent ≠ 0)
    (kernel : Kernel Ledger) :
    Along (pageStep sixtyFourPages) (PageCall.Valid sixtyFourPages) (mapAll maps) ⟨kernel, .empty⟩ := by
  refine ⟨trivial, ?_⟩
  intro state steps
  apply along_maps each
  rw [steps.2]
  exact Or.inr rfl

theorem returns_path {calls : List PageCall}
    (returns : (runPageCalls sixtyFourPages calls (.zeroed ⟨[], []⟩)).isOk = true) :
    ∃ kernel', Path (pageStep sixtyFourPages) calls ⟨.zeroed ⟨[], []⟩, .empty⟩ ⟨kernel', recordAll calls .empty⟩ := by
  cases result : runPageCalls sixtyFourPages calls (.zeroed ⟨[], []⟩) with
  | error fault =>
      rw [result] at returns
      cases returns
  | ok kernel' => exact ⟨kernel', path_iff.mpr ⟨result, rfl⟩⟩

theorem writableFirst_along (kernel : Kernel Ledger) :
    Along (pageStep sixtyFourPages) (PageCall.Valid sixtyFourPages) (mapAll writableFirst) ⟨kernel, .empty⟩ := by
  apply mapAll_along
  simp only [writableFirst, List.forall_mem_cons, List.not_mem_nil, false_implies, implies_true, and_true]
  refine ⟨⟨⟨trivial, ⟨?_, ?_, ?_⟩, ?_, ?_, ?_⟩, ?_⟩, ⟨trivial, ⟨?_, ?_, ?_⟩, ?_, ?_, ?_⟩, ?_⟩ <;> decide

theorem readOnlyFirst_along (kernel : Kernel Ledger) :
    Along (pageStep sixtyFourPages) (PageCall.Valid sixtyFourPages) (mapAll readOnlyFirst) ⟨kernel, .empty⟩ := by
  apply mapAll_along
  simp only [readOnlyFirst, List.forall_mem_cons, List.not_mem_nil, false_implies, implies_true, and_true]
  refine ⟨⟨⟨trivial, ⟨?_, ?_, ?_⟩, ?_, ?_, ?_⟩, ?_⟩, ⟨trivial, ⟨?_, ?_, ?_⟩, ?_, ?_, ?_⟩, ?_⟩ <;> decide

/-- The page for reading behind the one for writing has its permission. -/
theorem pageRun_effective_iff_writableFirst : ∃ final,
    Path (pageStep sixtyFourPages) (mapAll writableFirst) ⟨.zeroed ⟨[], []⟩, .empty⟩ final ∧
      mmuEffective 1 0x401000 final.kernel = pageUserRo &&& permissionBits := by
  obtain ⟨kernel', path⟩ := @returns_path (mapAll writableFirst) (by decide +kernel)
  have granted : (recordAll (mapAll writableFirst) .empty).SpansGrant 1 0x401000 pageUserRo := by
    unfold PageHistory.SpansGrant
    decide
  refine ⟨_, path, ?_⟩
  exact (pageRun_effective_iff _ _ _ _ (writableFirst_along _) path 1 0x401000 0x6000 pageUserRo rfl).mpr granted

/-- The page for writing behind the one for reading cannot be written. -/
theorem pageRun_loses_write : ∃ final,
    Along (pageStep sixtyFourPages) (PageCall.Valid sixtyFourPages) (mapAll readOnlyFirst)
      ⟨.zeroed ⟨[], []⟩, .empty⟩ ∧
    Path (pageStep sixtyFourPages) (mapAll readOnlyFirst) ⟨.zeroed ⟨[], []⟩, .empty⟩ final ∧
      final.history.last 1 0x401000 = some (0x6000, pageKernelRw) ∧
      mmuEffective 1 0x401000 final.kernel ≠ pageKernelRw &&& permissionBits := by
  obtain ⟨kernel', path⟩ := @returns_path (mapAll readOnlyFirst) (by decide +kernel)
  have along := readOnlyFirst_along (.zeroed ⟨[], []⟩)
  have shows := (PageState.shows_empty sixtyFourPages (.zeroed ⟨[], []⟩)).run along path
  have refused : ¬(recordAll (mapAll readOnlyFirst) .empty).SpansGrant 1 0x401000 pageKernelRw := by
    unfold PageHistory.SpansGrant
    decide
  refine ⟨_, along, path, rfl, ?_⟩
  intro same
  exact refused ((shows.effective_iff rfl).mp same)

/-- Two pages whose frames the allocator does not hold. -/
def borrowedPages : List (Nat × Nat × Nat) := [(0x400000, 0x3f000, pageUserRw), (0x401000, 0x3e000, pageUserRw)]

/-- After the two mappings the first page may be unmapped. -/
theorem borrowedPages_along : Along (pageStep sixtyFourPages) (PageCall.Valid sixtyFourPages)
    (mapAll borrowedPages ++ [.unmap 1 0x400000]) ⟨.zeroed ⟨[], []⟩, .empty⟩ := by
  have maps : Along (pageStep sixtyFourPages) (PageCall.Valid sixtyFourPages) (mapAll borrowedPages)
      ⟨.zeroed ⟨[], []⟩, .empty⟩ := by
    apply mapAll_along
    simp only [borrowedPages, List.forall_mem_cons, List.not_mem_nil, false_implies, implies_true, and_true]
    refine ⟨⟨⟨trivial, ⟨?_, ?_, ?_⟩, ?_, ?_, ?_⟩, ?_⟩, ⟨trivial, ⟨?_, ?_, ?_⟩, ?_, ?_, ?_⟩, ?_⟩ <;> decide
  refine along_append.mpr ⟨maps, ?_⟩
  intro final path
  have shows := (PageState.shows_empty sixtyFourPages (.zeroed ⟨[], []⟩)).run maps path
  obtain ⟨done, recorded⟩ := path_iff.mp path
  have ready : final.history.ready 1 := by
    rw [recorded]
    exact Or.inr rfl
  have page : CanonicalPage 0x400000 := ⟨by decide, by decide, by decide⟩
  refine ⟨⟨ready, page, ?_⟩, fun _ _ => trivial⟩
  intro old middle mapped table
  -- The allocator holds the frames of the root and of the three tables below it.
  have computed : ((runPageCalls sixtyFourPages (mapAll borrowedPages) (.zeroed ⟨[], []⟩) >>=
      mmuMapPage sixtyFourPages 1 0x400000 0 0).map fun result => (result.1, result.2.env.frames)).toOption =
        some (0x3f007, [4, 3, 2, 1]) := by decide +kernel
  have chained : (runPageCalls sixtyFourPages (mapAll borrowedPages) (.zeroed ⟨[], []⟩) >>=
      mmuMapPage sixtyFourPages 1 0x400000 0 0) = .ok (old, middle) :=
    Outcome.bind_eq_ok.mpr ⟨final.kernel, done, mapped⟩
  rw [chained] at computed
  obtain ⟨rfl, held⟩ := Prod.mk.inj (Option.some.inj computed)
  obtain ⟨-, set⟩ := mmuMapPage_leafSet shows.tables ready page (by decide) mapped
  obtain ⟨frame, ⟨index, listed, -, rfl⟩, -, bounded, same⟩ := set.tables.backed _ table
  have equal := dmP2V_injective (by decide) bounded same
  rw [held] at listed
  simp only [List.mem_cons, List.not_mem_nil, or_false] at listed
  rcases listed with rfl | rfl | rfl | rfl <;> revert equal <;> decide

/-- The second page is translated to its frame, and a page behind all calls to all ones. -/
theorem pageRun_translates_iff_borrowed : ∃ final,
    Path (pageStep sixtyFourPages) (mapAll borrowedPages ++ [.unmap 1 0x400000]) ⟨.zeroed ⟨[], []⟩, .empty⟩ final ∧
      mmuTranslate4k (final.kernel.root 1) 0x401000 final.kernel = 0x3e000 ∧
      mmuTranslate4k (final.kernel.root 1) 0x800000 final.kernel = 2 ^ 64 - 1 := by
  obtain ⟨kernel', path⟩ := @returns_path (mapAll borrowedPages ++ [.unmap 1 0x400000]) (by decide +kernel)
  have second := pageRun_translates_iff _ _ _ _ borrowedPages_along path 1 0x401000 (Or.inr rfl)
    ⟨by decide, by decide, by decide⟩
  have behind := pageRun_translates_iff _ _ _ _ borrowedPages_along path 1 0x800000 (Or.inr rfl)
    ⟨by decide, by decide, by decide⟩
  have mapped : (recordAll (mapAll borrowedPages ++ [.unmap 1 0x400000]) .empty).last 1 0x401000 ≠ none := by decide
  have untouched : (recordAll (mapAll borrowedPages ++ [.unmap 1 0x400000]) .empty).first 1 (lastSlotStem 0x800000)
      (lastSlot 0x800000) = none := by decide
  exact ⟨_, path, second.mpr (Or.inl mapped), behind.mpr (Or.inr untouched)⟩

/-- An unmapped page behind a mapped one is translated to the frame zero. -/
theorem pageRun_translates_unmapped : ∃ final,
    Along (pageStep sixtyFourPages) (PageCall.Valid sixtyFourPages) (mapAll writableFirst)
      ⟨.zeroed ⟨[], []⟩, .empty⟩ ∧
    Path (pageStep sixtyFourPages) (mapAll writableFirst) ⟨.zeroed ⟨[], []⟩, .empty⟩ final ∧
      final.history.ready 1 ∧ CanonicalPage 0x402000 ∧ final.history.last 1 0x402000 = none ∧
      mmuTranslate4k (final.kernel.root 1) 0x402000 final.kernel ≠ 2 ^ 64 - 1 := by
  obtain ⟨kernel', path⟩ := @returns_path (mapAll writableFirst) (by decide +kernel)
  have along := writableFirst_along (.zeroed ⟨[], []⟩)
  have shows := (PageState.shows_empty sixtyFourPages (.zeroed ⟨[], []⟩)).run along path
  have page : CanonicalPage 0x402000 := ⟨by decide, by decide, by decide⟩
  have touched : (recordAll (mapAll writableFirst) .empty).first 1 (lastSlotStem 0x402000) (lastSlot 0x402000) ≠
      none := by decide
  refine ⟨_, along, path, Or.inr rfl, page, rfl, ?_⟩
  intro same
  exact ((shows.translates_iff (Or.inr rfl) page).mp same).elim (absurd rfl) touched

end B0s

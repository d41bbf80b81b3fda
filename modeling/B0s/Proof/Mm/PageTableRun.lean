import B0s.Proof.Mm.PageTable

/-
This file proves that every run of mapping calls refines a map from pages to leaf entries.
-/

namespace B0s
open TableForest

variable {σ : Type}

/-- A client of the page tables sets up a space or writes the leaf entry of one page. -/
inductive MmuCall where
  | init (space : Nat)
  | map (space va pa perm : Nat)
  deriving DecidableEq, Repr

/-- A mapping names a ready space, a canonical page, an aligned frame, and twelve permission bits. -/
structure MapRequest (ready : Nat → Prop) (space va pa perm : Nat) : Prop where
  ready : ready space
  page : CanonicalPage va
  aligned : pa % pageSizeInBytes = 0
  bounded : pa < 2 ^ 64
  small : perm < pageSizeInBytes

def MmuCall.Valid (ready : Nat → Prop) : MmuCall → Prop
  | .init _ => True
  | .map space va pa perm => MapRequest ready space va pa perm

/-- A space is ready after its initialisation. -/
def MmuCall.ready (call : MmuCall) (ready : Nat → Prop) (space : Nat) : Prop :=
  ready space ∨ call = .init space

def readyAfter (calls : List MmuCall) (ready : Nat → Prop) : Nat → Prop :=
  calls.foldl (fun ready call => call.ready ready) ready

/-- Each call of a valid run is valid for the spaces that are ready by then. -/
def ValidMmuRun : (Nat → Prop) → List MmuCall → Prop
  | _, [] => True
  | ready, call :: calls => call.Valid ready ∧ ValidMmuRun (call.ready ready) calls

def MmuCall.run (frames : FrameAllocator σ) : MmuCall → Kernel σ → Outcome (Kernel σ)
  | .init space, kernel => mmuInit frames space kernel
  | .map space va pa perm, kernel => (mmuMapPage frames space va pa perm kernel).map Prod.snd

def runMmuCalls (frames : FrameAllocator σ) : List MmuCall → Kernel σ → Outcome (Kernel σ)
  | [], kernel => .ok kernel
  | call :: calls, kernel => call.run frames kernel >>= runMmuCalls frames calls

/-- The reference map keeps the leaf entry last written for each page of each space. -/
def MmuCall.reference : MmuCall → (Nat → Nat → Nat) → Nat → Nat → Nat
  | .init space, leaves => Function.update leaves space fun _ => 0
  | .map space va pa perm, leaves =>
      Function.update leaves space (Function.update (leaves space) va (pa ||| perm))

def lastWritten (calls : List MmuCall) (map : Nat → Nat → Nat) : Nat → Nat → Nat :=
  calls.foldl (fun map call => call.reference map) map

/-- The leaf entries of the ready spaces are those of the map. -/
structure TablesDenote (frames : FrameAllocator σ) (ready : Nat → Prop) (kernel : Kernel σ)
    (map : Nat → Nat → Nat) : Prop where
  tables : PageTables frames ready kernel
  leaf : ∀ space va, ready space → CanonicalPage va → mmuLeaf space va kernel = map space va

/-- Without a ready space there is no table. -/
theorem tablesDenote_empty (frames : FrameAllocator σ) (kernel : Kernel σ) :
    TablesDenote frames (fun _ => False) kernel fun _ _ => 0 where
  tables := ⟨⟨fun belongs => belongs.elim⟩, fun _ reached => by
    obtain ⟨_, _, belongs, _⟩ := reached
    exact belongs.elim⟩
  leaf _ _ belongs := belongs.elim

section
variable {frames : FrameAllocator σ} {ready : Nat → Prop} {kernel kernel' : Kernel σ}
  {map : Nat → Nat → Nat}

/-- A mapping returns the old value of the map and refines the update of the map. -/
theorem TablesDenote.map_page (denotes : TablesDenote frames ready kernel map)
    {space va pa perm ret : Nat} (request : MapRequest ready space va pa perm)
    (mapped : mmuMapPage frames space va pa perm kernel = .ok (ret, kernel')) :
    ret = map space va ∧ LeafSet frames ready kernel kernel' space va (pa ||| perm) ∧
      TablesDenote frames ready kernel' (MmuCall.reference (.map space va pa perm) map) := by
  obtain ⟨returned, set⟩ :=
    mmuMapPage_leafSet denotes.tables request.ready request.page request.small mapped
  refine ⟨?_, set, set.tables, ?_⟩
  · rw [returned, denotes.leaf space va request.ready request.page]
  · intro space' va' belongs page
    by_cases same : space' = space ∧ va' = va
    · obtain ⟨rfl, rfl⟩ := same
      simp [MmuCall.reference, set.self]
    · rw [set.other belongs page same, denotes.leaf space' va' belongs page]
      by_cases here : space' = space
      · subst here
        have elsewhere : va' ≠ va := fun equal => same ⟨rfl, equal⟩
        simp [MmuCall.reference, elsewhere]
      · simp [MmuCall.reference, here]

/-- An initialisation refines the clearing of one space. -/
theorem TablesDenote.init_space (denotes : TablesDenote frames ready kernel map) {space : Nat}
    (done : mmuInit frames space kernel = .ok kernel') :
    TablesDenote frames ((MmuCall.init space).ready ready) kernel'
      (MmuCall.reference (.init space) map) := by
  have only : ∀ other, (MmuCall.init space).ready ready other → other ≠ space → ready other := by
    rintro other (old | new) different
    · exact old
    · exact absurd (MmuCall.init.inj new).symm different
  have set := mmuInit_rootSet denotes.tables only done
  refine ⟨set.tables, ?_⟩
  intro space' va belongs page
  by_cases same : space' = space
  · subst same
    simp [MmuCall.reference, set.self]
  · rw [set.other belongs same, denotes.leaf space' va (only space' belongs same) page]
    simp [MmuCall.reference, same]

/-- A call that returns keeps the refinement. -/
theorem TablesDenote.step (denotes : TablesDenote frames ready kernel map) {call : MmuCall}
    (valid : call.Valid ready) (done : call.run frames kernel = .ok kernel') :
    TablesDenote frames (call.ready ready) kernel' (call.reference map) := by
  cases call with
  | init space => exact denotes.init_space done
  | map space va pa perm =>
      cases mapped : mmuMapPage frames space va pa perm kernel with
      | error fault => simp [MmuCall.run, mapped, Except.map] at done
      | ok result =>
          obtain ⟨ret, next⟩ := result
          simp only [MmuCall.run, mapped, Except.map, Except.ok.injEq] at done
          subst done
          have same : (MmuCall.map space va pa perm).ready ready = ready := by
            funext other
            simp [MmuCall.ready]
          rw [same]
          exact (denotes.map_page valid mapped).2.2

/-- A run that returns keeps the refinement. -/
theorem TablesDenote.run {calls : List MmuCall} (denotes : TablesDenote frames ready kernel map)
    (valid : ValidMmuRun ready calls) (done : runMmuCalls frames calls kernel = .ok kernel') :
    TablesDenote frames (readyAfter calls ready) kernel' (lastWritten calls map) := by
  induction calls generalizing kernel ready map with
  | nil =>
      obtain rfl : kernel = kernel' := by simpa [runMmuCalls] using done
      exact denotes
  | cons call calls ih =>
      obtain ⟨middle, first, rest⟩ := Outcome.bind_eq_ok.mp done
      exact ih (denotes.step valid.1 first) valid.2 rest

end

/-- Ensuring a table faults only with the frame allocator. -/
theorem mmuEnsureTable_fault {frames : FrameAllocator σ} {entry permWoG : Nat} {kernel : Kernel σ}
    {fault : Fault} (faults : mmuEnsureTable frames entry permWoG kernel = .error fault) :
    ∃ env, frames.pmmXalloc env = .error fault := by
  unfold mmuEnsureTable at faults
  split_ifs at faults
  rcases Outcome.bind_eq_error.mp faults with first | ⟨⟨frame, env⟩, -, rest⟩
  · exact ⟨_, first⟩
  · cases rest

/-- Mapping a page faults only with the frame allocator. -/
theorem mmuMapPage_fault {frames : FrameAllocator σ} {space va pa perm : Nat} {kernel : Kernel σ}
    {fault : Fault} (faults : mmuMapPage frames space va pa perm kernel = .error fault) :
    ∃ env, frames.pmmXalloc env = .error fault := by
  unfold mmuMapPage at faults
  rcases Outcome.bind_eq_error.mp faults with first | ⟨⟨pdpt, middle⟩, -, faults⟩
  · exact mmuEnsureTable_fault first
  rcases Outcome.bind_eq_error.mp faults with second | ⟨⟨pdt, middle⟩, -, faults⟩
  · exact mmuEnsureTable_fault second
  rcases Outcome.bind_eq_error.mp faults with third | ⟨⟨pt, middle⟩, -, faults⟩
  · exact mmuEnsureTable_fault third
  · cases faults

/-- After every run the leaf entries are those last written, and the next mapping returns the old
entry of its page, sets the new one, and keeps the entries of all other pages of all spaces. -/
theorem mmuCalls_refine_map (frames : FrameAllocator σ) (kernel kernel' : Kernel σ)
    (calls : List MmuCall) (valid : ValidMmuRun (fun _ => False) calls)
    (reached : runMmuCalls frames calls kernel = .ok kernel') :
    let ready := readyAfter calls fun _ => False
    (∀ space va, ready space → CanonicalPage va →
      mmuLeaf space va kernel' = lastWritten calls (fun _ _ => 0) space va) ∧
    ∀ space va pa perm, MapRequest ready space va pa perm →
      (∀ fault, mmuMapPage frames space va pa perm kernel' = .error fault →
        ∃ env, frames.pmmXalloc env = .error fault) ∧
      ∀ ret next, mmuMapPage frames space va pa perm kernel' = .ok (ret, next) →
        ret = lastWritten calls (fun _ _ => 0) space va ∧
        mmuLeaf space va next = pa ||| perm ∧
        (pa ||| perm ≠ 0 → mmuTranslate4k (next.root space) va next = pa) ∧
        ∀ space' va', ready space' → CanonicalPage va' → ¬(space' = space ∧ va' = va) →
          mmuLeaf space' va' next = mmuLeaf space' va' kernel' := by
  have denotes := (tablesDenote_empty frames kernel).run valid reached
  refine ⟨denotes.leaf, ?_⟩
  intro space va pa perm request
  refine ⟨fun fault faults => mmuMapPage_fault faults, ?_⟩
  intro ret next mapped
  obtain ⟨returned, set, -⟩ := denotes.map_page request mapped
  refine ⟨returned, set.self, ?_, fun space' va' belongs page => set.other belongs page⟩
  intro nonzero
  rw [mmuTranslate4k_eq request.page.aligned (set.self ▸ nonzero), set.self]
  have bits := WordBits.or_low_bits 12 request.aligned request.small
  have aligned := request.aligned
  have bounded := request.bounded
  have small := request.small
  unfold pageSizeInBytes at aligned small
  rw [bits, pageAddr_eq (by omega), pageSizeInBytes]
  omega

/-- These calls map one page in two spaces and unmap it in the first. -/
def twoSpaceCalls : List MmuCall :=
  [.init 1, .init 2, .map 1 0x400000 0x5000 3, .map 2 0x400000 0x6000 7, .map 1 0x400000 0 0]

/-- Unmapping the page in one space keeps its entry in the other space. -/
theorem mmuCalls_refine_map_twoSpaces :
    let frames := (ledgerAllocator 64 (by decide)).toFrameAllocator
    ∃ kernel', runMmuCalls frames twoSpaceCalls (.zeroed ⟨[], []⟩) = .ok kernel' ∧
      mmuLeaf 1 0x400000 kernel' = 0 ∧ mmuLeaf 2 0x400000 kernel' = 0x6007 := by
  intro frames
  have page : CanonicalPage 0x400000 := ⟨by decide, by decide, by decide⟩
  have valid : ValidMmuRun (fun _ => False) twoSpaceCalls := by
    simp only [twoSpaceCalls, ValidMmuRun, MmuCall.Valid, true_and, and_true]
    refine ⟨?_, ?_, ?_⟩ <;>
      exact ⟨by simp [MmuCall.ready], page, by decide, by decide, by decide⟩
  have returns : (runMmuCalls (ledgerAllocator 64 (by decide)).toFrameAllocator twoSpaceCalls
      (.zeroed ⟨[], []⟩)).isOk = true := by decide +kernel
  cases result : runMmuCalls frames twoSpaceCalls (.zeroed ⟨[], []⟩) with
  | error fault =>
      rw [result] at returns
      cases returns
  | ok kernel' =>
      have leaves := (mmuCalls_refine_map frames _ kernel' twoSpaceCalls valid result).1
      have first := leaves 1 0x400000 (by simp [readyAfter, twoSpaceCalls, MmuCall.ready]) page
      have second := leaves 2 0x400000 (by simp [readyAfter, twoSpaceCalls, MmuCall.ready]) page
      exact ⟨kernel', rfl, first.trans (by decide), second.trans (by decide)⟩

end B0s

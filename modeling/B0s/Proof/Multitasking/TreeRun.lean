import B0s.Library.Runs
import B0s.Proof.Lib.ListRefine
import B0s.Construction.Multitasking.ProcessTree

/-
This file settles in which runs of `process_create` each process keeps a ring of its children.
-/

namespace B0s

/-- A call creates a process at a fresh address with a parent. -/
structure ProcessBirth where
  proc : Nat
  parent : Nat
  deriving DecidableEq

/-- The links of the processes with the births so far. -/
structure Family where
  tree : ProcessTree
  births : List ProcessBirth

/-- The processes that were created with this parent. -/
def Family.children (family : Family) (proc : Nat) : List Nat :=
  (family.births.filter fun birth => birth.parent = proc).map ProcessBirth.proc

/-- The boot process and the created ones. -/
def Family.members (boot : Nat) (family : Family) : List Nat := boot :: family.births.map ProcessBirth.proc

def ProcessBirth.run (birth : ProcessBirth) (family : Family) : Outcome Family := do
  let tree ← family.tree.processCreate birth.proc birth.parent
  .ok { tree := tree, births := birth :: family.births }

def ProcessBirth.Steps (birth : ProcessBirth) (family family' : Family) : Prop := birth.run family = .ok family'

/-- The child pointer is null for a process without children. Otherwise it names a member of a ring that consists of
the children, each of them once. -/
def Family.Keeps (family : Family) (proc : Nat) : Prop :=
  (family.children proc = [] ∧ family.tree.child proc = NULL) ∨
    ∃ nodes, family.tree.siblings.Holds (family.tree.child proc) nodes ∧
      (family.tree.child proc :: nodes).Perm (family.children proc)

/-- Each process keeps its children. -/
def Family.Sound (boot : Nat) (family : Family) : Prop := ∀ proc ∈ family.members boot, family.Keeps proc

/-- The call follows no null pointer, and each process keeps its children afterwards. -/
def ProcessBirth.Sound (boot : Nat) (birth : ProcessBirth) (family : Family) : Prop :=
  ∃ family', birth.run family = .ok family' ∧ family'.Sound boot

/-- `kmalloc` returns a fresh address, and the parent is null or a process from before. -/
structure ProcessBirth.Valid (boot : Nat) (birth : ProcessBirth) (family : Family) : Prop where
  nonnull : birth.proc ≠ NULL
  fresh : birth.proc ∉ family.members boot
  parent : birth.parent = NULL ∨ birth.parent ∈ family.members boot

/-- The processes are distinct, and each has a parent among them. -/
structure Family.Grown (boot : Nat) (family : Family) : Prop where
  distinct : (family.members boot).Nodup
  nonnull : ∀ proc ∈ family.members boot, proc ≠ NULL
  parents : ∀ birth ∈ family.births, birth.parent ∈ family.members boot
  sound : family.Sound boot

section
variable {boot proc : Nat} {family : Family} {birth : ProcessBirth}

theorem Family.mem_children {child : Nat} :
    child ∈ family.children proc ↔ ⟨child, proc⟩ ∈ family.births := by
  simp only [Family.children, List.mem_map, List.mem_filter, decide_eq_true_eq]
  constructor
  · rintro ⟨birth, ⟨member, rfl⟩, rfl⟩
    exact member
  · intro member
    exact ⟨_, ⟨member, rfl⟩, rfl⟩

/-- The births of two processes with one address are the same. -/
theorem Family.Grown.parent_unique (grown : family.Grown boot) {child first second : Nat}
    (here : child ∈ family.children first) (there : child ∈ family.children second) : first = second := by
  have distinct := (List.nodup_cons.mp grown.distinct).2
  have same := List.inj_on_of_nodup_map distinct (Family.mem_children.mp here) (Family.mem_children.mp there) rfl
  exact congrArg ProcessBirth.parent same

theorem ProcessBirth.Steps.births {family' : Family} (steps : birth.Steps family family') :
    family'.births = birth :: family.births := by
  obtain ⟨tree, -, rest⟩ := Outcome.bind_eq_ok.mp steps
  obtain rfl := Except.ok.inj rest
  rfl

/-- A birth adds one child to its parent. -/
theorem Family.children_birth {tree tree' : ProcessTree} {births : List ProcessBirth} :
    Family.children ⟨tree', birth :: births⟩ proc =
      if birth.parent = proc then birth.proc :: Family.children ⟨tree, births⟩ proc
      else Family.children ⟨tree, births⟩ proc := by
  simp only [Family.children, List.filter_cons, decide_eq_true_eq]
  split_ifs <;> rfl

/-- A process keeps its children while their links and its child pointer stay. -/
theorem Family.Keeps.frame {family' : Family} {touched : List Nat} (keeps : family.Keeps proc)
    (children : family'.children proc = family.children proc)
    (child : family'.tree.child proc = family.tree.child proc)
    (same : family.tree.siblings.SameOutside touched family'.tree.siblings)
    (apart : ∀ node ∈ touched, node ∉ family.children proc) : family'.Keeps proc := by
  rw [Family.Keeps, children, child]
  rcases keeps with ⟨none, null⟩ | ⟨nodes, holds, perm⟩
  · exact Or.inl ⟨none, null⟩
  · right
    refine ⟨nodes, holds.frame same ?_, perm⟩
    intro node inside member
    exact apart node inside (perm.mem_iff.mp member)

theorem ProcessTree.processCreate_first {tree : ProcessTree} {siblings : Links} {parent : Nat}
    (nonnull : proc ≠ NULL) (parented : parent ≠ NULL) (initialised : initListHead proc tree.siblings = .ok siblings)
    (childless : tree.child parent = NULL) : tree.processCreate proc parent = .ok
      { siblings := siblings
        parent := Function.update tree.parent proc parent
        child := Function.update (Function.update tree.child parent proc) proc NULL } := by
  simp [ProcessTree.processCreate, ProcessTree.setParent, ProcessTree.setChild, initialised, nonnull, parented,
    childless, bind, Except.bind]

theorem ProcessTree.processCreate_later {tree : ProcessTree} {siblings added : Links} {parent : Nat}
    (nonnull : proc ≠ NULL) (parented : parent ≠ NULL) (initialised : initListHead proc tree.siblings = .ok siblings)
    (child : tree.child parent ≠ NULL) (adds : listAdd proc (tree.child parent) siblings = .ok added) :
    tree.processCreate proc parent = .ok
      { siblings := added
        parent := Function.update tree.parent proc parent
        child := Function.update tree.child proc NULL } := by
  simp [ProcessTree.processCreate, ProcessTree.setParent, ProcessTree.setChild, initialised, nonnull, parented,
    child, adds, bind, Except.bind]

/-- A process without a parent follows the null pointer. -/
theorem ProcessTree.processCreate_orphan {tree : ProcessTree} (nonnull : proc ≠ NULL) :
    tree.processCreate proc NULL = .error .nullAccess := by
  obtain ⟨siblings, initialised, -⟩ := initListHead_gives tree.siblings nonnull
  simp [ProcessTree.processCreate, ProcessTree.setParent, ProcessTree.setChild, initialised, nonnull, bind, Except.bind]

/-- The new process and the children of its parent are not children of another process. -/
theorem Family.Grown.apart (grown : family.Grown boot) (valid : birth.Valid boot family)
    (different : birth.parent ≠ proc) :
    ∀ node ∈ birth.proc :: family.children birth.parent, node ∉ family.children proc := by
  intro node inside member
  rcases List.mem_cons.mp inside with rfl | sibling
  · apply valid.fresh
    exact List.mem_cons_of_mem _ (List.mem_map.mpr ⟨_, Family.mem_children.mp member, rfl⟩)
  · exact different (grown.parent_unique sibling member)

/-- A family stays grown when the new process has no children, its parent keeps it, and the other processes keep
their links. -/
theorem Family.Grown.extend {tree' : ProcessTree} (grown : family.Grown boot) (valid : birth.Valid boot family)
    (parented : birth.parent ≠ NULL)
    (siblings : family.tree.siblings.SameOutside (birth.proc :: family.children birth.parent) tree'.siblings)
    (child : ∀ proc ≠ birth.proc, proc ≠ birth.parent → tree'.child proc = family.tree.child proc)
    (childless : tree'.child birth.proc = NULL)
    (parent : Family.Keeps ⟨tree', birth :: family.births⟩ birth.parent) :
    Family.Grown boot ⟨tree', birth :: family.births⟩ := by
  have known : birth.parent ∈ family.members boot := valid.parent.resolve_left parented
  have order : (Family.members boot ⟨tree', birth :: family.births⟩).Perm (birth.proc :: family.members boot) :=
    List.Perm.swap _ _ _
  refine ⟨?_, ?_, ?_, ?_⟩
  · rw [order.nodup_iff, List.nodup_cons]
    exact ⟨valid.fresh, grown.distinct⟩
  · intro proc member
    rcases List.mem_cons.mp (order.mem_iff.mp member) with rfl | member
    · exact valid.nonnull
    · exact grown.nonnull proc member
  · intro other member
    apply order.mem_iff.mpr
    apply List.mem_cons_of_mem
    rcases List.mem_cons.mp member with rfl | member
    · exact known
    · exact grown.parents other member
  · intro proc member
    rcases List.mem_cons.mp (order.mem_iff.mp member) with rfl | member
    · -- no earlier process has the new one as its parent
      have none : Family.children ⟨tree', birth :: family.births⟩ birth.proc = [] := by
        have notParent : birth.parent ≠ birth.proc := fun same => valid.fresh (same ▸ known)
        rw [Family.children_birth, if_neg notParent]
        apply List.eq_nil_iff_forall_not_mem.mpr
        intro node child
        exact valid.fresh (grown.parents _ (Family.mem_children.mp child))
      exact Or.inl ⟨none, childless⟩
    · by_cases same : proc = birth.parent
      · rw [same]
        exact parent
      · have old : proc ≠ birth.proc := fun equal => valid.fresh (equal ▸ member)
        apply (grown.sound proc member).frame _ (child proc old same) siblings
        · exact grown.apart valid (Ne.symm same)
        · rw [Family.children_birth, if_neg (Ne.symm same)]

/-- A call with a parent follows no null pointer, and each process keeps its children. -/
theorem Family.Grown.born (grown : family.Grown boot) (valid : birth.Valid boot family)
    (parented : birth.parent ≠ NULL) : ∃ family', birth.run family = .ok family' ∧ family'.Grown boot := by
  have known : birth.parent ∈ family.members boot := valid.parent.resolve_left parented
  have other : birth.parent ≠ birth.proc := fun same => valid.fresh (same ▸ known)
  obtain ⟨siblings, initialised, alone, same, keeps⟩ := initListHead_gives family.tree.siblings valid.nonnull
  have ran : ∀ tree', family.tree.processCreate birth.proc birth.parent = .ok tree' →
      birth.run family = .ok ⟨tree', birth :: family.births⟩ := by
    intro tree' created
    rw [ProcessBirth.run, created]
    rfl
  rcases grown.sound birth.parent known with ⟨none, childless⟩ | ⟨nodes, holds, perm⟩
  · refine ⟨_, ran _ (ProcessTree.processCreate_first valid.nonnull parented initialised childless), ?_⟩
    apply grown.extend valid parented
    · intro node outside
      exact same node fun inside => outside (List.mem_cons.mpr (Or.inl (List.mem_singleton.mp inside)))
    · intro proc notProc notParent
      dsimp only
      rw [Function.update_of_ne notProc, Function.update_of_ne notParent]
    · exact Function.update_self _ _ _
    · right
      refine ⟨[], ?_, ?_⟩
      · dsimp only
        rw [Function.update_of_ne other, Function.update_self]
        exact alone
      · dsimp only
        rw [Function.update_of_ne other, Function.update_self, Family.children_birth, if_pos rfl]
        exact (List.Perm.of_eq none.symm).cons birth.proc
  · have fresh : birth.proc ∉ family.tree.child birth.parent :: nodes := by
      intro inside
      apply valid.fresh
      have child := Family.mem_children.mp (perm.mem_iff.mp inside)
      exact List.mem_cons_of_mem _ (List.mem_map.mpr ⟨_, child, rfl⟩)
    have child := holds.nonnull _ List.mem_cons_self
    have apart : List.Disjoint [birth.proc] (family.tree.child birth.parent :: nodes) :=
      fun node inside member => fresh (List.mem_singleton.mp inside ▸ member)
    obtain ⟨added, adds, holds', same'⟩ := listAdd_holds (keeps _ _ holds apart) fresh valid.nonnull
    refine ⟨_, ran _ (ProcessTree.processCreate_later valid.nonnull parented initialised child adds), ?_⟩
    apply grown.extend valid parented
    · intro node outside
      have outside' : node ∉ birth.proc :: family.tree.child birth.parent :: nodes :=
        fun inside => outside ((perm.cons birth.proc).mem_iff.mp inside)
      have first := same node fun inside => outside (List.mem_cons.mpr (Or.inl (List.mem_singleton.mp inside)))
      have second := same' node outside'
      exact ⟨second.1.trans first.1, second.2.trans first.2⟩
    · intro proc notProc _
      exact Function.update_of_ne notProc _ _
    · exact Function.update_self _ _ _
    · right
      refine ⟨birth.proc :: nodes, ?_, ?_⟩
      · dsimp only
        rw [Function.update_of_ne other]
        exact holds'
      · dsimp only
        rw [Function.update_of_ne other, Family.children_birth, if_pos rfl]
        exact (List.Perm.swap _ _ _).trans (perm.cons birth.proc)

/-- Along a run from a grown family, each process keeps its children exactly when each call has a parent. -/
theorem Family.Grown.run_iff {births : List ProcessBirth} (grown : family.Grown boot)
    (valid : Runs.Along ProcessBirth.Steps (ProcessBirth.Valid boot) births family) :
    Runs.Along ProcessBirth.Steps (ProcessBirth.Sound boot) births family ↔ ∀ birth ∈ births, birth.parent ≠ NULL := by
  induction births generalizing family with
  | nil => exact iff_of_true trivial (by simp)
  | cons birth births ih =>
      by_cases orphan : birth.parent = NULL
      · refine iff_of_false ?_ fun all => all birth List.mem_cons_self orphan
        rintro ⟨⟨family', ran, -⟩, -⟩
        rw [ProcessBirth.run, orphan, ProcessTree.processCreate_orphan valid.1.nonnull] at ran
        cases ran
      · obtain ⟨family', ran, grown'⟩ := grown.born valid.1 orphan
        have result : ∀ state', birth.Steps family state' ↔ family' = state' := by
          intro state'
          rw [ProcessBirth.Steps, ran, Except.ok.injEq]
        rw [Runs.along_cons result, ih grown' (valid.2 family' ran), List.forall_mem_cons]
        exact and_congr_left fun _ => iff_of_true ⟨family', ran, grown'.sound⟩ orphan

end

/-- No process has a child, and each node is alone. -/
def childlessTree : ProcessTree := ⟨⟨fun node => node, fun node => node⟩, fun _ => NULL, fun _ => NULL⟩

end B0s

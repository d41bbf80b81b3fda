import B0s.Construction.Lib.List

/-
This file models the family links of `process.c`, with the other parts of a process left out.
-/

namespace B0s

/-- Each process record has a node in a ring of siblings, its parent, and one of its children. The node has the
address of the record. -/
structure ProcessTree where
  siblings : Links
  parent : Nat → Nat
  child : Nat → Nat

namespace ProcessTree

/-- Write `proc->child`. -/
def setChild (proc value : Nat) (tree : ProcessTree) : Outcome ProcessTree :=
  if proc = NULL then .error .nullAccess
  else .ok { tree with child := Function.update tree.child proc value }

/-- Write `proc->parent`. -/
def setParent (proc value : Nat) (tree : ProcessTree) : Outcome ProcessTree :=
  if proc = NULL then .error .nullAccess
  else .ok { tree with parent := Function.update tree.parent proc value }

/-- The record lies where `kmalloc` returned `proc`. The boot process of `process_init` keeps what its memory held. -/
def processCreate (proc parent : Nat) (tree : ProcessTree) : Outcome ProcessTree := do
  let siblings ← initListHead proc tree.siblings
  let tree ← { tree with siblings := siblings }.setParent proc parent
  let tree ←
    if parent ≠ NULL ∧ tree.child parent ≠ NULL then do
      let siblings ← listAdd proc (tree.child parent) tree.siblings
      .ok { tree with siblings := siblings }
    else tree.setChild parent proc
  tree.setChild proc NULL

end ProcessTree

end B0s

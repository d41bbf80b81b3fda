import B0s.Construction.Machine

/-
This file models the intrusive lists of `list.h`, whose nodes are addresses.
-/

namespace B0s

/-- Memory holds the two links of each list node. -/
structure Links where
  next : Nat → Nat
  prev : Nat → Nat

namespace Links

/-- Read `node->next`. -/
def readNext (links : Links) (node : Nat) : Outcome Nat :=
  if node = NULL then .error .nullAccess else .ok (links.next node)

/-- Read `node->prev`. -/
def readPrev (links : Links) (node : Nat) : Outcome Nat :=
  if node = NULL then .error .nullAccess else .ok (links.prev node)

/-- Write `node->next`. -/
def setNext (links : Links) (node value : Nat) : Outcome Links :=
  if node = NULL then .error .nullAccess
  else .ok { links with next := Function.update links.next node value }

/-- Write `node->prev`. -/
def setPrev (links : Links) (node value : Nat) : Outcome Links :=
  if node = NULL then .error .nullAccess
  else .ok { links with prev := Function.update links.prev node value }

end Links

/-- This is `INIT_LIST_HEAD`, and `LIST_HEAD_INIT` assigns the same links. -/
def initListHead (list : Nat) (links : Links) : Outcome Links := do
  let links ← links.setNext list list
  links.setPrev list list

/-- This is `__list_add`. -/
def listInsert (el prev next : Nat) (links : Links) : Outcome Links := do
  let links ← links.setPrev next el
  let links ← links.setNext el next
  let links ← links.setPrev el prev
  links.setNext prev el

def listAdd (el head : Nat) (links : Links) : Outcome Links := do
  let next ← links.readNext head
  listInsert el head next links

def listAddTail (el head : Nat) (links : Links) : Outcome Links := do
  let prev ← links.readPrev head
  listInsert el prev head links

/-- This is `__list_del`. -/
def listUnlink (prev next : Nat) (links : Links) : Outcome Links := do
  let links ← links.setPrev next prev
  links.setNext prev next

def listDel (entry : Nat) (links : Links) : Outcome Links := do
  let links ← listUnlink (links.prev entry) (links.next entry) links
  let links ← links.setNext entry NULL
  links.setPrev entry NULL

/-- The loop of `list_for_each_safe` lists the nodes that its body gets. The node behind the current one is saved
in `n`. -/
def listForEachSafeFrom (head : Nat) (body : Nat → Links → Outcome Links) :
    Nat → Nat → Nat → Links → Outcome (List Nat × Links)
  | 0, _, _, _ => .error .diverges
  | steps + 1, pos, n, links =>
      if pos = head then .ok ([], links)
      else do
        let links ← body pos links
        let next ← links.readNext n
        let (visited, links) ← listForEachSafeFrom head body steps n next links
        .ok (pos :: visited, links)

def listForEachSafe (steps head : Nat) (body : Nat → Links → Outcome Links) (links : Links) :
    Outcome (List Nat × Links) := do
  let pos ← links.readNext head
  let n ← links.readNext pos
  listForEachSafeFrom head body steps pos n links

/-- A loop body deletes the current node from its list when a predicate holds. -/
def listDelWhen (condition : Nat → Bool) (pos : Nat) (links : Links) : Outcome Links :=
  if condition pos then listDel pos links else .ok links

def listEmpty (head : Nat) (links : Links) : Outcome Bool := do
  let next ← links.readNext head
  .ok (next == head)

end B0s
